/-
What is reported of the toolchain's output (`Command.runTool_reports`).

Each line that is not blank is told on its own: as a text, or as the
message of a value.  Most lines can be told whatever they say; those that
cannot are known by what they hold (`Command.reportOf_error_iff`).  The
first of them ends the run, and nobody waits for the process.
-/
import SketchCompiler.Toolchain

namespace SketchCompiler

open List
open Text (Point Points)

namespace Diagnostic

/-- A diagnostic is about a file in the directory of the sketch, or about
some sketch file. -/
def Ours (home sketch : Path) (d : Diagnostic) : Prop :=
  (d.file home).isWithin (home.resolve sketch) = true ∨ (d.file home).suffix = ".ino"

/-- A diagnostic cannot be told: no path has a point of its path, or it is
about a file of ours and one of its numbers is too long. -/
def Untellable (home sketch : Path) (d : Diagnostic) : Prop :=
  (∃ point ∈ d.path, nameable point = false)
    ∨ d.Ours home sketch
      ∧ ∃ number ∈ [d.line, d.column], ∃ reason, Numeral.readInt .ten number = .error reason

/-- A diagnostic has a place in the source. -/
def Placed (home sketch : Path) (map : LineMap) (d : Diagnostic) : Prop :=
  d.Ours home sketch ∧ ∃ line origin,
    Numeral.readInt .ten d.line = .ok line ∧ map.lookup line.toNat = some origin

/-- A diagnostic cannot be told, is told around its message, or has no
place. -/
theorem retell_cases (home sketch : Path) (map : LineMap) (level : Option String)
    (d : Diagnostic) :
    (d.Untellable home sketch ∧ ∃ fault, d.retell home sketch map level = .error fault)
      ∨ ¬ d.Untellable home sketch ∧
        (d.Placed home sketch map ∧ (∃ front behind, d.retell home sketch map level
            = .ok (some (.ofString front ++ d.message ++ .ofString behind)))
          ∨ ¬ d.Placed home sketch map ∧ d.retell home sketch map level = .ok none) := by
  unfold retell Untellable Placed Ours
  generalize d.file home = path
  cases hpoint : d.path.find? (!nameable ·) with
  | some point =>
    have hbad := find?_some hpoint
    exact .inl ⟨.inl ⟨point, mem_of_find?_eq_some hpoint, by simpa using hbad⟩, _, rfl⟩
  | none =>
    have hpath : ¬ ∃ point ∈ d.path, nameable point = false := by
      simpa using find?_eq_none.mp hpoint
    by_cases hours : path.isWithin (home.resolve sketch) = true ∨ path.suffix = ".ino"
    case neg =>
      have hother : (!path.isWithin (home.resolve sketch) && path.suffix != ".ino") = true := by
        simpa [not_or] using hours
      refine .inr ⟨by simp [hpath, hours], .inr ⟨fun h => hours h.1, ?_⟩⟩
      simp only [hother, if_true]
      rfl
    have hours' : (!path.isWithin (home.resolve sketch) && path.suffix != ".ino") = false := by
      rcases hours with h | h <;> simp [h]
    simp only [hours', Bool.false_eq_true, if_false]
    cases hline : Numeral.readInt .ten d.line with
    | error reason => exact .inl ⟨.inr ⟨hours, _, mem_cons_self, reason, hline⟩, _, rfl⟩
    | ok line =>
      cases hcolumn : Numeral.readInt .ten d.column with
      | error reason =>
        exact .inl ⟨.inr ⟨hours, _, mem_cons_of_mem _ mem_cons_self, reason, hcolumn⟩, _, rfl⟩
      | ok column =>
        refine .inr ⟨by simp [hpath, hline, hcolumn], ?_⟩
        cases horigin : map.lookup line.toNat with
        | none =>
          refine .inr ⟨?_, ?_⟩
          · rintro ⟨-, line', origin, hline', horigin'⟩
            cases hline'
            rw [horigin] at horigin'
            cases horigin'
          · delta Except.mapError
            dsimp only [bind, Except.bind]
            rw [horigin]
            rfl
        | some origin =>
          refine .inl ⟨⟨hours, line, origin, rfl, horigin⟩, ?_⟩
          delta Except.mapError
          dsimp only [bind, Except.bind]
          rw [horigin]
          exact ⟨_, _, rfl⟩

end Diagnostic

/-- A session goes on with the reports of some lines, up to the first that
there is none of. -/
def Session.told (s : Session) :
    List (Except CommandFault String) → Except CommandFault Unit × Session
  | [] => (.ok (), s)
  | .ok report :: reports => { s with out := s.out ++ [report] }.told reports
  | .error fault :: _ => (.error fault, s)

theorem Session.told_append (s : Session) (reports : List String)
    (behind : List (Except CommandFault String)) :
    s.told (reports.map .ok ++ behind) = { s with out := s.out ++ reports }.told behind := by
  induction reports generalizing s with
  | nil => rw [append_nil, map_nil, nil_append]
  | cons report reports ih =>
    rw [map_cons, cons_append, told, ih, append_assoc]
    rfl

namespace Command

variable {home sketch : Path} {map : LineMap} {line : String} {text : Points}
  {level : Option String}
  {command : List String} {s s' : Session} {fault : CommandFault} {run : ToolRun}
  {runs : List ToolRun}

-- ==== lines

/-- The level and the text that a line of the toolchain tells. -/
def heardOf (line : String) : Except CommandFault (Option String × Points) :=
  match Json.read line with
  | .error (.numeral reason) => .error (.numeral reason)
  | .error (.syntactic _ _) => .ok (none, .ofString line)
  | .ok payload =>
    match messageOf payload with
    | .string message => .ok (some (levelOf payload), message)
    | other => .error (.notString other.typeText)

/-- What is printed for a text. -/
def toldAs (home sketch : Path) (map : LineMap) (level : Option String) (text : Points) :
    Except CommandFault String :=
  (toldLine home sketch map level text).mapError .diagnostic

/-- What is printed for a line. -/
def reportOf (home sketch : Path) (map : LineMap) (line : String) : Except CommandFault String :=
  heardOf line >>= fun heard => toldAs home sketch map heard.1 heard.2

/-- The lines of an output that are not blank. -/
def spokenLines (lines : List String) : List String :=
  (lines.map Text.trim).filter (· ≠ "")

theorem run_tell (sketch : Path) (map : LineMap) (level : Option String) (text : Points)
    (s : Session) :
    (tell sketch map level text).run.run s
      = s.told [toldAs s.tree.home sketch map level text] := by
  unfold tell toldAs
  rw [ExceptT.run_bind, StateT.run_bind]
  change ((orFault .diagnostic (toldLine s.tree.home sketch map level text) >>= _
      : Command Unit).run.run s) = _
  rw [ExceptT.run_bind, StateT.run_bind]
  cases toldLine s.tree.home sketch map level text with
  | error fault => rfl
  | ok line => rfl

theorem reportOf_of_heard (h : heardOf line = .ok (level, text)) :
    reportOf home sketch map line = toldAs home sketch map level text := by
  rw [reportOf, h]
  rfl

theorem reportOf_of_unheard (h : heardOf line = .error fault) :
    reportOf home sketch map line = .error fault := by
  rw [reportOf, h]
  rfl

theorem run_tellLine (sketch : Path) (map : LineMap) (line : String) (s : Session) :
    (tellLine sketch map line).run.run s
      = s.told ((spokenLines [line]).map (reportOf s.tree.home sketch map)) := by
  unfold tellLine spokenLines
  rw [map_singleton]
  generalize Text.trim line = spoken
  by_cases hblank : spoken = ""
  · rw [hblank]
    rfl
  have hspoken : [spoken].filter (· ≠ "") = [spoken] := by simp [hblank]
  rw [hspoken, map_singleton]
  dsimp only
  rw [if_neg (fun h => hblank (eq_of_beq h))]
  cases hread : Json.read spoken with
  | error fault =>
    cases fault with
    | numeral reason =>
      have hheard : heardOf spoken = .error (.numeral reason) := by rw [heardOf, hread]
      rw [reportOf_of_unheard hheard]
      rfl
    | syntactic what offset =>
      have hheard : heardOf spoken = .ok (none, .ofString spoken) := by rw [heardOf, hread]
      rw [reportOf_of_heard hheard]
      exact run_tell sketch map none (.ofString spoken) s
  | ok payload =>
    dsimp only
    cases hmessage : messageOf payload with
    | string message =>
      have hheard : heardOf spoken = .ok (some (levelOf payload), message) := by
        rw [heardOf, hread]
        dsimp only
        rw [hmessage]
      rw [reportOf_of_heard hheard]
      exact run_tell sketch map (some (levelOf payload)) message s
    | _ =>
      have hheard : heardOf spoken = .error (.notString (messageOf payload).typeText) := by
        rw [heardOf, hread]
        dsimp only
        rw [hmessage]
      rw [reportOf_of_unheard hheard, hmessage]
      rfl

theorem run_tellLines (sketch : Path) (map : LineMap) (lines : List String) (s : Session) :
    (lines.forM (tellLine sketch map)).run.run s
      = s.told ((spokenLines lines).map (reportOf s.tree.home sketch map)) := by
  induction lines generalizing s with
  | nil => rfl
  | cons line lines ih =>
    change (tellLine sketch map line >>= fun _ => lines.forM (tellLine sketch map)).run.run s = _
    rw [ExceptT.run_bind, StateT.run_bind, run_tellLine]
    by_cases hblank : Text.trim line = ""
    · have hspoken : spokenLines (line :: lines) = spokenLines lines := by
        simp [spokenLines, hblank]
      have hline : spokenLines [line] = [] := by simp [spokenLines, hblank]
      rw [hspoken, hline]
      exact ih s
    have hspoken : spokenLines (line :: lines) = Text.trim line :: spokenLines lines := by
      simp [spokenLines, hblank]
    have hline : spokenLines [line] = [Text.trim line] := by simp [spokenLines, hblank]
    rw [hspoken, hline, map_singleton, map_cons]
    cases reportOf s.tree.home sketch map (Text.trim line) with
    | error fault => rfl
    | ok report => exact ih { s with out := s.out ++ [report] }

-- ==== lines without a report

/-- The part of a text that is printed: the message of its diagnostic if
that has a place in the source, the whole text if not. -/
def Printed (home sketch : Path) (map : LineMap) (text part : Points) : Prop :=
  (∃ d, Diagnostic.find? text = some d ∧ d.Placed home sketch map ∧ part = d.message)
    ∨ (∀ d, Diagnostic.find? text = some d → ¬ d.Placed home sketch map) ∧ part = text

/-- A text cannot be told: it is about a diagnostic that cannot be, or a
half would have to be printed. -/
def Mute (home sketch : Path) (map : LineMap) (text : Points) : Prop :=
  (∃ d, Diagnostic.find? text = some d ∧ d.Untellable home sketch)
    ∨ ∃ part code, Printed home sketch map text part ∧ .half code ∈ part

/-- A line that there is no report of: one with a number that is too long,
one whose message is no string, or one whose text cannot be told. -/
def Breaks (home sketch : Path) (map : LineMap) (line : String) : Prop :=
  (∃ reason, Json.read line = .error (.numeral reason))
    ∨ (∃ payload, Json.read line = .ok payload ∧ ∀ text, messageOf payload ≠ .string text)
    ∨ ∃ level text, heardOf line = .ok (level, text) ∧ Mute home sketch map text

theorem heardOf_error_iff :
    (∃ fault, heardOf line = .error fault) ↔ (∃ reason, Json.read line = .error (.numeral reason))
      ∨ ∃ payload, Json.read line = .ok payload ∧ ∀ text, messageOf payload ≠ .string text := by
  unfold heardOf
  cases Json.read line with
  | error fault => cases fault <;> simp
  | ok payload =>
    cases hmessage : messageOf payload <;> simp [hmessage]

/-- A line is printed around a part unless that part has a half. -/
theorem printable_error_iff (front behind : String) (part : Points) :
    (∃ fault, printable (.ofString front ++ part ++ .ofString behind) = .error fault)
      ↔ ∃ code, .half code ∈ part := by
  unfold printable
  by_cases hpart : ∃ code, .half code ∈ part
  · obtain ⟨code, hcode⟩ := hpart
    rw [if_neg fun h => by simpa [Point.is] using all_eq_true.mp h (.half code) (by simp [hcode])]
    exact iff_of_true ⟨_, rfl⟩ ⟨code, hcode⟩
  · rw [if_pos]
    · exact iff_of_false nofun hpart
    · refine all_eq_true.mpr fun point hpoint => ?_
      cases point with
      | char c => rfl
      | half code => exact absurd ⟨code, by simpa [Points.ofString] using hpoint⟩ hpart

theorem toldAs_error_iff :
    (∃ fault, toldAs home sketch map level text = .error fault) ↔ Mute home sketch map text := by
  have herror : (∃ fault, toldAs home sketch map level text = .error fault)
      ↔ ∃ fault, toldLine home sketch map level text = .error fault := by
    unfold toldAs
    cases toldLine home sketch map level text with
    | error fault => exact iff_of_true ⟨_, rfl⟩ ⟨fault, rfl⟩
    | ok line => exact iff_of_false nofun nofun
  rw [herror]
  unfold toldLine retellText Mute Printed
  generalize "[arduino-cli:" ++ level.getD "info" ++ "] " = plain
  have hplain := printable_error_iff plain "" text
  rw [show Points.ofString "" = [] from rfl, append_nil] at hplain
  cases hfind : Diagnostic.find? text with
  | none => exact hplain.trans (by simp)
  | some d =>
    simp only [Option.some.injEq, exists_eq_left', forall_eq']
    rcases d.retell_cases home sketch map level with
      ⟨hmute, fault, hretell⟩ | ⟨htold, ⟨hplaced, front, behind, hretell⟩ | ⟨hplaced, hretell⟩⟩
    · exact iff_of_true ⟨fault, by rw [hretell]; rfl⟩ (.inl hmute)
    · rw [hretell]
      exact (printable_error_iff front behind d.message).trans (by simp [htold, hplaced])
    · rw [hretell]
      exact hplain.trans (by simp [htold, hplaced])

theorem reportOf_error_iff :
    (∃ fault, reportOf home sketch map line = .error fault) ↔ Breaks home sketch map line := by
  rw [Breaks, ← or_assoc, ← heardOf_error_iff]
  cases hheard : heardOf line with
  | error fault => exact iff_of_true ⟨_, reportOf_of_unheard hheard⟩ (.inl ⟨fault, rfl⟩)
  | ok heard =>
    rw [reportOf_of_heard hheard, toldAs_error_iff]
    refine ⟨fun h => .inr ⟨heard.1, heard.2, rfl, h⟩, ?_⟩
    rintro (⟨fault, hfault⟩ | ⟨level, text, htext, h⟩)
    · cases hfault
    · cases htext
      exact h

-- a half by itself cannot be printed, but one inside an array is shown as an escape
example :
    (reportOf ⟨"/", []⟩ ⟨"/", ["s"]⟩ [] "\"\\ud800\"").toOption = none
      ∧ (reportOf ⟨"/", []⟩ ⟨"/", ["s"]⟩ [] "[\"\\ud800\"]").toOption
        = some "[arduino-cli:info] ['\\ud800']" := by
  decide +kernel

-- ==== processes

/-- The exit code that a run counts as, where there is one. -/
def resultOf : Option ToolRun → Int
  | none => 127
  | some run => if run.interrupted then 130 else run.exit

/-- What is done to a process, from the attempt to start it on. -/
def callsOf (command : List String) : Option ToolRun → List Call
  | none => [.run command]
  | some run =>
    .run command ::
      if run.interrupted then
        [.terminate, .wait (some 5)] ++ if run.stuck then [.kill, .wait none] else []
      else [.wait none]

/-- A wait for the process has come to its end; one with a limit does not
if the process is stuck. -/
def Waited (run : ToolRun) (calls : List Call) : Prop :=
  .wait none ∈ calls ∨ run.stuck = false ∧ ∃ seconds, .wait (some seconds) ∈ calls

theorem waited_callsOf (command : List String) (run : ToolRun) :
    Waited run (callsOf command (some run)) := by
  unfold Waited callsOf
  cases hstuck : run.stuck <;> cases hinterrupted : run.interrupted <;> simp [hstuck, hinterrupted]

/-- The complaint about a run, where there is one. -/
def complaintOf : Option ToolRun → List String
  | none => ["[arduino-cli:error] 'arduino-cli' executable not found. "
      ++ "Install Arduino CLI and ensure it is on PATH."]
  | some run => if run.interrupted then ["[arduino-cli:error] Build interrupted by user."] else []

/-- The reports of what a run prints. -/
def reportsOf (home sketch : Path) (map : LineMap) (run : ToolRun) :
    List (Except CommandFault String) :=
  (spokenLines (Text.outputLines run.output)).map (reportOf home sketch map)

theorem run_runTool_missing (hruns : s.runs = []) :
    (runTool command sketch map).run.run s = (.ok (resultOf none), { s with
      err := s.err ++ complaintOf none, calls := s.calls ++ callsOf command none,
      found := s.found ++ [s.tree] }) := by
  obtain ⟨tree, runs, out, err, calls, found⟩ := s
  cases hruns
  rfl

/-- What is done to a process behind its output. -/
def finish (run : ToolRun) : Command Int := do
  if run.interrupted then
    complain "[arduino-cli:error] Build interrupted by user."
    stop run 5
    return 130
  else
    call (.wait none)
    return run.exit

theorem run_finish (command : List String) (run : ToolRun) (s : Session) :
    (finish run).run.run s = (.ok (resultOf (some run)), { s with
      err := s.err ++ complaintOf (some run)
      calls := s.calls ++ (callsOf command (some run)).tail }) := by
  obtain ⟨output, exit, interrupted, stuck⟩ := run
  cases interrupted with
  | false =>
    simp only [resultOf, complaintOf, callsOf, Bool.false_eq_true, if_false, append_nil]
    rfl
  | true =>
    cases stuck with
    | false =>
      simp only [resultOf, complaintOf, callsOf, if_true, Bool.false_eq_true, if_false,
        append_nil, tail_cons]
      rw [append_cons s.calls]
      rfl
    | true =>
      simp only [resultOf, complaintOf, callsOf, if_true, cons_append, nil_append, tail_cons]
      rw [append_cons s.calls, append_cons (s.calls ++ _), append_cons (s.calls ++ _ ++ _)]
      rfl

theorem run_runTool (sketch : Path) (map : LineMap) (hruns : s.runs = run :: runs) :
    (runTool command sketch map).run.run s
      = ((Text.outputLines run.output).forM (tellLine sketch map) >>= fun _ => finish run).run.run
        { s with runs, calls := s.calls ++ [.run command], found := s.found ++ [s.tree] } := by
  obtain ⟨tree, _, out, err, calls, found⟩ := s
  cases hruns
  rfl

theorem run_runTool_ok {reports : List String} (hruns : s.runs = run :: runs)
    (hreports : reportsOf s.tree.home sketch map run = reports.map .ok) :
    (runTool command sketch map).run.run s = (.ok (resultOf (some run)), { s with
      runs, out := s.out ++ reports, err := s.err ++ complaintOf (some run),
      calls := s.calls ++ callsOf command (some run), found := s.found ++ [s.tree] }) := by
  rw [run_runTool sketch map hruns, ExceptT.run_bind, StateT.run_bind, run_tellLines, ← reportsOf,
    hreports, ← append_nil (reports.map _), Session.told_append]
  have hcalls : s.calls ++ callsOf command (some run)
      = (s.calls ++ [.run command]) ++ (callsOf command (some run)).tail := by
    rw [append_assoc]
    rfl
  rw [hcalls]
  exact run_finish command run _

theorem run_runTool_error {reports : List String} {behind : List (Except CommandFault String)}
    (hruns : s.runs = run :: runs)
    (hreports : reportsOf s.tree.home sketch map run = reports.map .ok ++ .error fault :: behind) :
    (runTool command sketch map).run.run s = (.error fault, { s with
      runs, out := s.out ++ reports, calls := s.calls ++ [.run command],
      found := s.found ++ [s.tree] }) := by
  rw [run_runTool sketch map hruns, ExceptT.run_bind, StateT.run_bind, run_tellLines, ← reportsOf,
    hreports, Session.told_append]
  rfl

theorem exists_reports {ε : Type} (results : List (Except ε String)) :
    (∃ reports : List String, results = reports.map .ok)
      ∨ ∃ (reports : List String) (fault : ε) (behind : List (Except ε String)),
        results = reports.map .ok ++ .error fault :: behind := by
  induction results with
  | nil => exact .inl ⟨[], rfl⟩
  | cons result results ih =>
    cases result with
    | error fault => exact .inr ⟨[], fault, results, rfl⟩
    | ok report =>
      rcases ih with ⟨reports, rfl⟩ | ⟨reports, fault, behind, rfl⟩
      · exact .inl ⟨report :: reports, rfl⟩
      · exact .inr ⟨report :: reports, fault, behind, rfl⟩

theorem exists_reports_of_not_breaks {lines : List String}
    (h : ∀ line ∈ lines, ¬ Breaks home sketch map line) :
    ∃ reports : List String, lines.map (reportOf home sketch map) = reports.map .ok := by
  rcases exists_reports (lines.map (reportOf home sketch map)) with hok
    | ⟨reports, fault, behind, hbroken⟩
  · exact hok
  have hmem : Except.error fault ∈ lines.map (reportOf home sketch map) := by simp [hbroken]
  obtain ⟨line, hline, hfault⟩ := mem_map.mp hmem
  exact absurd (reportOf_error_iff.mp ⟨fault, hfault⟩) (h line hline)

/-- **What the toolchain prints can break a run.**  If every line that is
not blank can be reported, each is, in order, and the process was waited
for; only an interruption is complained about.  Otherwise the run ends
with a fault at the first line that cannot be: the lines in front of it
are reported, and the process is left alone. -/
theorem runTool_reports (command : List String) (sketch : Path) (map : LineMap) (s : Session)
    (run : ToolRun) (runs : List ToolRun) (hruns : s.runs = run :: runs) :
    ((∀ line ∈ spokenLines (Text.outputLines run.output), ¬ Breaks s.tree.home sketch map line) →
      ∃ reports, reportsOf s.tree.home sketch map run = reports.map .ok
        ∧ (runTool command sketch map).run.run s = (.ok (resultOf (some run)), { s with
          runs, out := s.out ++ reports, err := s.err ++ complaintOf (some run),
          calls := s.calls ++ callsOf command (some run), found := s.found ++ [s.tree] })
        ∧ Waited run (callsOf command (some run)))
      ∧ ∀ front line behind,
        spokenLines (Text.outputLines run.output) = front ++ line :: behind →
        (∀ line ∈ front, ¬ Breaks s.tree.home sketch map line) →
          Breaks s.tree.home sketch map line →
        ∃ reports fault, front.map (reportOf s.tree.home sketch map) = reports.map .ok
          ∧ reportOf s.tree.home sketch map line = .error fault
          ∧ (runTool command sketch map).run.run s = (.error fault, { s with
            runs, out := s.out ++ reports, calls := s.calls ++ [.run command],
            found := s.found ++ [s.tree] })
          ∧ ¬ Waited run [.run command] := by
  refine ⟨fun hlines => ?_, fun front line behind hsplit hfront hline => ?_⟩
  · obtain ⟨reports, hreports⟩ := exists_reports_of_not_breaks hlines
    exact ⟨reports, hreports, run_runTool_ok hruns hreports, waited_callsOf command run⟩
  · obtain ⟨reports, hreports⟩ := exists_reports_of_not_breaks hfront
    obtain ⟨fault, hfault⟩ := reportOf_error_iff.mpr hline
    refine ⟨reports, fault, hreports, hfault, ?_, by simp [Waited]⟩
    have hresults : reportsOf s.tree.home sketch map run = reports.map .ok
        ++ .error fault :: behind.map (reportOf s.tree.home sketch map) := by
      rw [reportsOf, hsplit, List.map_append, hreports, List.map_cons, hfault]
    exact run_runTool_error hruns hresults

/-- A value whose message is a number. -/
def numberText : String :=
  "\x7b\"message\": 5\x7d"

/-- A session in which the toolchain will print a text. -/
def printing (output : String) : Session where
  tree := .empty ⟨"/", []⟩
  runs := [{ output }]

/-- A line that is no value is reported; a message that is a number ends
the run. -/
theorem runTool_reports_number :
    (∃ reports, (runTool ["arduino-cli"] ⟨"/", ["s"]⟩ []).run.run (printing "done\n")
        = (.ok 0, {
          tree := .empty ⟨"/", []⟩, out := reports, calls := [.run ["arduino-cli"], .wait none],
          found := [.empty ⟨"/", []⟩] }))
      ∧ ∃ fault, (runTool ["arduino-cli"] ⟨"/", ["s"]⟩ []).run.run (printing (numberText ++ "\n"))
        = (.error fault, {
          tree := .empty ⟨"/", []⟩, calls := [.run ["arduino-cli"]],
          found := [.empty ⟨"/", []⟩] }) := by
  constructor
  · have hspoken : spokenLines (Text.outputLines "done\n") = ["done"] := by decide +kernel
    have hdone : (reportOf ⟨"/", []⟩ ⟨"/", ["s"]⟩ [] "done").toOption ≠ none := by decide +kernel
    obtain ⟨reports, -, hrun, -⟩ := (runTool_reports ["arduino-cli"] ⟨"/", ["s"]⟩ []
      (printing "done\n") { output := "done\n" } [] rfl).1 fun line hline => by
        rw [hspoken, List.mem_singleton] at hline
        obtain rfl := hline
        intro hbreaks
        obtain ⟨fault, hfault⟩ := reportOf_error_iff.mpr hbreaks
        exact hdone (congrArg Except.toOption hfault)
    exact ⟨reports, hrun⟩
  · have hnumber : (reportOf ⟨"/", []⟩ ⟨"/", ["s"]⟩ [] numberText).toOption = none := by
      decide +kernel
    obtain ⟨reports, fault, hreports, -, hrun, -⟩ :=
      (runTool_reports ["arduino-cli"] ⟨"/", ["s"]⟩ []
      (printing (numberText ++ "\n")) { output := numberText ++ "\n" } [] rfl).2 []
        numberText [] (by decide +kernel) nofun (reportOf_error_iff.mp (by
          cases hreport : reportOf ⟨"/", []⟩ ⟨"/", ["s"]⟩ [] numberText with
          | error fault => exact ⟨fault, hreport⟩
          | ok report =>
            rw [hreport] at hnumber
            cases hnumber))
    obtain rfl := List.map_eq_nil_iff.mp hreports.symm
    exact ⟨fault, hrun⟩

/-- A message that is a number ends the run without a report, and the
process is not waited for. -/
theorem number_unreported :
    let ending := (runTool ["arduino-cli"] ⟨"/", ["s"]⟩ []).run.run (printing (numberText ++ "\n"))
    ending.1.toOption = none ∧ ending.2.out = [] ∧ ending.2.calls = [.run ["arduino-cli"]] := by
  decide +kernel

end Command
end SketchCompiler
