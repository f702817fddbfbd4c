/-
The protocol of a build with the toolchain: what is started when, and
which exit code follows (`Request.build_protocol`).

# Sketches

The code is published where the output's path leads to, and copied from
where the path resolves to.  Both are one place (`locate_resolve`).  The
copy is exact because code has no carriage return, and it is not
overwritten, because the file that marks the sketch has another ending.

# Processes

Each run of the toolchain takes the next of the runs that it will make,
whatever that is (`Session.Ran`), and a process that was started is waited
for.  A session keeps the files that each process finds, so that the
statement tells what was written before it was started.
-/
import SketchCompiler.CommandLine
import SketchCompiler.Proofs.LineFeeds
import SketchCompiler.Proofs.ToolOutput

namespace SketchCompiler

namespace FileTree

variable {t t' : FileTree} {p q : Path} {text text' : String} {place names reached : List String}

/-- A path leads to a file with the text. -/
def Holds (t : FileTree) (p : Path) (text : String) : Prop :=
  ∃ place, t.locate p = .reached place ∧ t.entry? place = some (.file (.text text))

theorem follow_collapse (h : t.follow place names = .reached reached) :
    reached = Path.collapse place names := by
  induction names generalizing place with
  | nil =>
    cases h
    rfl
  | cons name rest ih =>
    unfold follow at h
    unfold Path.collapse
    split at h
    · cases h
    · cases h
    · split at h
      · rename_i hname
        rw [if_pos hname]
        exact ih h
      · rename_i hname
        rw [if_neg hname]
        exact ih h

theorem locate_resolve (h : t.locate p = .reached place) : place = (t.home.resolve p).names :=
  follow_collapse h

theorem Grows.holds (h : t.Grows q t') (hp : t.Holds p text) : t'.Holds p text := by
  obtain ⟨place, hlocate, hentry⟩ := hp
  exact ⟨place, h.keeps.locate hlocate, h.kept _ _ hentry⟩

theorem Writes.holds_self (h : t.Writes p text t') : t'.Holds p text := by
  obtain ⟨place, hlocate, hentry, -⟩ := h.written
  exact ⟨place, hlocate, hentry⟩

theorem Writes.holds_other (h : t.Writes q text' t') (hp : t.Holds p text)
    (hne : (t.home.resolve p).names ≠ (t.home.resolve q).names) : t'.Holds p text := by
  obtain ⟨place, hlocate, hentry⟩ := hp
  obtain ⟨place', hlocate', -, hfree, hother⟩ := h.written
  have hplace' : place' = (t.home.resolve q).names := by
    rw [locate_resolve hlocate', h.home]
  have hkept : ∀ place e, place ≠ place' → t.entry? place = some e → t'.entry? place = some e := by
    intro place e hplace he
    rcases hother place hplace with hsame | ⟨hnone, -⟩
    · rw [hsame, he]
    · rw [he] at hnone
      cases hnone
  have hkeeps : Keeps t t' := by
    refine ⟨h.home, fun place hdirectory => hkept place _ ?_ hdirectory⟩
    rintro rfl
    exact hfree hdirectory
  refine ⟨place, hkeeps.locate hlocate, hkept _ _ ?_ hentry⟩
  rw [locate_resolve hlocate, hplace']
  exact hne

/-- A text without a carriage return is read back as it is. -/
theorem Holds.read {read : String} (h : t.Holds p text) (htext : '\r' ∉ text.toList)
    (hread : t.read (t.home.resolve p) = .ok read) : read = text := by
  obtain ⟨place, hlocate, hentry⟩ := h
  obtain ⟨place', s, hlocate', hentry', rfl⟩ := read_cases hread
  have hplace' : place' = (t.home.resolve p).names :=
    follow_reached (ModuleGraph.dots_notMem_collapse List.not_mem_nil) hlocate'
  rw [hplace', ← locate_resolve hlocate, hentry] at hentry'
  cases hentry'
  exact Text.withLineFeeds_eq htext

end FileTree

-- ==== steps

namespace Command

variable {ε α β : Type} {s s' : Session} {c : Command α} {f : α → Command β} {a : α} {b : β}
  {fault : ε → CommandFault} {x : Except ε α} {p : Path} {text line : String}
  {change : FileTree → Except FileFault Unit × FileTree}

/-- A step of a command ends with a result. -/
def Ends (c : Command α) (s : Session) (a : α) (s' : Session) : Prop :=
  c.run.run s = (.ok a, s')

theorem Ends.bind (h : Ends (c >>= f) s b s') : ∃ a s₁, Ends c s a s₁ ∧ Ends (f a) s₁ b s' := by
  unfold Ends at h ⊢
  rw [ExceptT.run_bind, StateT.run_bind] at h
  rcases hc : c.run.run s with ⟨fault | a, s₁⟩
  · rw [hc] at h
    cases h
  · rw [hc] at h
    exact ⟨a, s₁, rfl, h⟩

theorem Ends.orFault (h : Ends (orFault fault x) s a s') : x = .ok a ∧ s' = s := by
  cases x with
  | error e => cases h
  | ok a =>
    cases h
    exact ⟨rfl, rfl⟩

theorem Ends.changeTree (h : Ends (changeTree change) s () s') :
    ∃ t, change s.tree = (.ok (), t) ∧ s' = { s with tree := t } := by
  obtain ⟨_, _, hget, hrest⟩ := h.bind
  cases hget
  rcases hchange : change s.tree with ⟨outcome, t⟩
  rw [hchange] at hrest
  obtain ⟨_, _, hset, hfault⟩ := hrest.bind
  cases hset
  obtain ⟨rfl, rfl⟩ := hfault.orFault
  exact ⟨t, rfl, rfl⟩

theorem Ends.writeFile (h : Ends (writeFile p text) s () s') :
    ∃ t, s.tree.Writes p text t ∧ s' = { s with tree := t } := by
  obtain ⟨t, hwrite, hs'⟩ := h.changeTree
  refine ⟨t, ?_, hs'⟩
  rcases FileTree.orUnchanged_cases hwrite with ⟨_, -, hfault, -⟩ | ⟨hwrite, -⟩
  · cases hfault
  · exact FileTree.Grows.refl.write hwrite

/-- A session goes on with more printed lines and nothing else. -/
structure Tells (s s' : Session) : Prop where
  tree : s'.tree = s.tree
  runs : s'.runs = s.runs
  calls : s'.calls = s.calls
  found : s'.found = s.found

theorem Ends.complain (h : Ends (complain line) s () s') : Tells s s' := by
  cases h
  exact ⟨rfl, rfl, rfl, rfl⟩

end Command

/-- A command was run on the toolchain: it took the next run, found the
files as they were, and nothing was done but to that process, which was
waited for. -/
structure Session.Ran (command : List String) (s : Session) (result : Int) (s' : Session) :
    Prop where
  tree : s'.tree = s.tree
  runs : s'.runs = s.runs.tail
  calls : s'.calls = s.calls ++ Command.callsOf command s.runs.head?
  found : s'.found = s.found ++ [s.tree]
  result : result = Command.resultOf s.runs.head?

namespace Command

variable {s s' : Session} {name : String} {source sketch : Path}

theorem Ends.runTool {command : List String} {map : LineMap} {result : Int}
    (h : Ends (runTool command sketch map) s result s') : s.Ran command result s' := by
  unfold Ends at h
  cases hruns : s.runs with
  | nil =>
    rw [run_runTool_missing hruns] at h
    cases h
    exact ⟨rfl, hruns.symm ▸ rfl, by rw [hruns]; rfl, rfl, by rw [hruns]; rfl⟩
  | cons run runs =>
    rcases exists_reports (reportsOf s.tree.home sketch map run) with ⟨reports, hreports⟩
      | ⟨reports, fault, behind, hreports⟩
    · rw [run_runTool_ok hruns hreports] at h
      cases h
      exact ⟨rfl, by rw [hruns]; rfl, by rw [hruns]; rfl, rfl, by rw [hruns]; rfl⟩
    · rw [run_runTool_error hruns hreports] at h
      cases h

-- ==== sketches

/-- The file of the generated code in the directory of a sketch. -/
def generatedFile (home output : Path) : Path :=
  (sketchDirectory home output).join ⟨"", ["nova_generated.cpp"]⟩

/-- The file that marks the directory of a sketch as one. -/
def stubFile (home output : Path) : Path :=
  let sketch := sketchDirectory home output
  sketch.join ⟨"", [sketch.name ++ ".ino"]⟩

theorem resolve_sketch (home output : Path) (hname : name ≠ "..") :
    (home.resolve ((sketchDirectory home output).join ⟨"", [name]⟩)).names
      = Path.collapse [] (sketchDirectory home output).names ++ [name] := by
  have hconcat : ∀ names known : List String,
      Path.collapse known (names ++ [name]) = Path.collapse known names ++ [name] := by
    intro names
    induction names with
    | nil =>
      intro known
      simp [Path.collapse, hname]
    | cons first rest ih =>
      intro known
      rw [List.cons_append, Path.collapse, Path.collapse]
      split
      · exact ih _
      · exact ih _
  exact hconcat _ []

theorem generatedFile_ne_stubFile (home output : Path) :
    (home.resolve (generatedFile home output)).names
      ≠ (home.resolve (stubFile home output)).names := by
  have hlast : ∀ front : String, (front ++ ".ino").toList.getLast? = some 'o' := by simp
  have hstub : (sketchDirectory home output).name ++ ".ino" ≠ ".." := fun h => by
    have hend := hlast (sketchDirectory home output).name
    rw [h] at hend
    exact absurd hend (by decide)
  unfold generatedFile stubFile
  rw [resolve_sketch home output (by decide), resolve_sketch home output hstub]
  intro h
  have hend := hlast (sketchDirectory home output).name
  rw [← (List.cons.inj (List.append_cancel_left h)).1] at hend
  exact absurd hend (by decide)

theorem Ends.makeSketch (h : Ends (makeSketch source) s sketch s') :
    sketch = sketchDirectory s.tree.home source ∧ s'.runs = s.runs ∧ s'.calls = s.calls
      ∧ s'.found = s.found ∧ s'.tree.home = s.tree.home
      ∧ ∀ code, s.tree.Holds source code → '\r' ∉ code.toList →
        s'.tree.Holds (generatedFile s.tree.home source) code := by
  obtain ⟨_, _, hget, hrest⟩ := h.bind
  cases hget
  obtain ⟨_, _, hmake, hrest⟩ := hrest.bind
  obtain ⟨t₁, hmade, rfl⟩ := hmake.changeTree
  obtain ⟨_, _, hget, hrest⟩ := hrest.bind
  cases hget
  obtain ⟨read, _, hread, hrest⟩ := hrest.bind
  obtain ⟨hcode, rfl⟩ := hread.orFault
  obtain ⟨_, _, hwrite, hrest⟩ := hrest.bind
  obtain ⟨t₂, hwritten, rfl⟩ := hwrite.writeFile
  obtain ⟨_, _, hstub, hreturn⟩ := hrest.bind
  obtain ⟨t₃, hmarked, rfl⟩ := hstub.writeFile
  cases hreturn
  obtain ⟨hgrows, -⟩ := FileTree.makeDirectory_grows hmade
  have hhome : t₂.home = s.tree.home := hwritten.home.trans hgrows.home
  refine ⟨rfl, rfl, rfl, rfl, hmarked.home.trans hhome, fun code hholds hlineFeeds => ?_⟩
  have hread : t₁.read (t₁.home.resolve source) = .ok read := by
    rw [hgrows.home]
    exact hcode
  obtain rfl := (hgrows.holds hholds).read hlineFeeds hread
  refine hmarked.holds_other hwritten.holds_self ?_
  rw [hhome]
  exact generatedFile_ne_stubFile s.tree.home source

end Command

-- ==== requests

/-- The session in which the messages have been printed as well. -/
def Session.printed (s : Session) (messages : List Message) : Session :=
  { s with
    out := s.out ++ (messages.filter (!·.isError)).map (·.text)
    err := s.err ++ (messages.filter (·.isError)).map (·.text) }

namespace Request

open Command

variable {order : BuildOrder} {fqbn : String} {upload : Bool} {port : Option String}
  {s s' : Session} {b : Build} {fault : BuildFault} {t t' tree : FileTree}

theorem run_printMessages (messages : List Message) (s : Session) :
    (printMessages messages).run.run s = (.ok (), s.printed messages) := by
  induction messages generalizing s with
  | nil =>
    simp only [printMessages, Session.printed, List.filter_nil, List.map_nil, List.append_nil]
    rfl
  | cons m messages ih =>
    have hcons : (printMessages (m :: messages)).run.run s
        = (printMessages messages).run.run (s.printed [m]) := by
      cases hm : m.isError with
      | false =>
        simp [printMessages, Session.printed, hm]
        rfl
      | true =>
        simp [printMessages, Session.printed, hm]
        rfl
    rw [hcons, ih]
    cases hm : m.isError <;> simp [Session.printed, hm]

theorem run_buildAndPrint (order : BuildOrder) (s : Session) :
    (buildAndPrint order).run.run s = (do
      let build ← Command.orFault .build (order.run.run s.tree).1
      printMessages build.messages
      return build : Command Build).run.run { s with tree := (order.run.run s.tree).2 } :=
  (rfl)

theorem run_buildAndPrint_ok (h : order.run.run s.tree = (.ok b, tree)) :
    (buildAndPrint order).run.run s = (.ok b, Session.printed { s with tree } b.messages) := by
  rw [run_buildAndPrint, h]
  change (printMessages b.messages >>= fun _ => pure b : Command Build).run.run _ = _
  rw [ExceptT.run_bind, StateT.run_bind, run_printMessages]
  rfl

theorem run_buildAndPrint_error (h : order.run.run s.tree = (.error fault, tree)) :
    (buildAndPrint order).run.run s = (.error (.build fault), { s with tree }) := by
  rw [run_buildAndPrint, h]
  rfl

theorem ends_buildAndPrint (h : Ends (buildAndPrint order) s b s') :
    order.run.run s.tree = (.ok b, s'.tree) ∧ s'.runs = s.runs ∧ s'.calls = s.calls
      ∧ s'.found = s.found := by
  unfold Ends at h
  rcases hrun : order.run.run s.tree with ⟨fault | b', tree⟩
  · rw [run_buildAndPrint_error hrun] at h
    cases h
  · rw [run_buildAndPrint_ok hrun] at h
    cases h
    exact ⟨rfl, rfl, rfl, rfl⟩

/-- A build that reports no error has published the code of its program. -/
theorem published (h : order.run.run t = (.ok b, t')) (hquiet : b.failed = false) :
    ∃ modules p backend sk, order.Accepts t modules p
      ∧ Backend.ofTarget? order.target = some backend ∧ p.sketch backend = .ok sk
      ∧ t.Writes order.output sk.code t' := by
  rcases BuildOrder.Ends.run h with ⟨_, hfault, -, -⟩ | ⟨_, hb, hfailed, -, -⟩
    | ⟨modules, p, messages, backend, sk, result, haccepts, -, hbackend, hsketch, hpublish, hb⟩
  · cases hfault
  · cases hb
    rw [hfailed] at hquiet
    cases hquiet
  rcases hpublish.publish with ⟨_, -, rfl⟩ | ⟨_, -, rfl⟩ | ⟨t₁, hmake, hwrite, rfl⟩
  · cases hb
  · cases hb
  · obtain ⟨hgrows, -⟩ := FileTree.makeDirectory_grows hmake
    exact ⟨modules, p, backend, sk, haccepts, hbackend, hsketch, hgrows.write hwrite⟩

/-- The command that compiles a sketch. -/
def compileCommand (home : Path) (order : BuildOrder) (fqbn : String) : List String :=
  ["arduino-cli", "compile", "--fqbn", fqbn, "--format", "json",
    (sketchDirectory home order.output).text]

/-- The command that uploads a sketch. -/
def uploadCommand (home : Path) (order : BuildOrder) (fqbn port : String) : List String :=
  ["arduino-cli", "upload", "--fqbn", fqbn, "--port", port, "--format", "json",
    (sketchDirectory home order.output).text]

theorem waited_of_mem {command : List String} {runs : List ToolRun} :
    ∀ run ∈ runs.head?, Waited run (callsOf command runs.head?) := by
  intro run hrun
  rw [Option.mem_def.mp hrun]
  exact waited_callsOf command run

/-- The protocol of a build with the toolchain, for every file tree, every
request and all that the toolchain may do.

If a stage reports an error, nothing is started and the exit code is 1.
Otherwise one compilation is attempted, and it finds the file in the
sketch's directory holding exactly the generated code.  An upload is
attempted behind it exactly if the compilation has the result 0, uploading
was asked for and a port is named that is not empty; the exit code is then
that of the upload.  Without one it is the result of the compilation, or 2
if uploading was asked for.  Every process is waited for. -/
theorem build_protocol {exit : Int}
    (h : (Request.build order fqbn upload port).run.run.run s = (.ok exit, s')) :
    ∃ b tree, order.run.run s.tree = (.ok b, tree)
      ∧ (b.failed = true →
        exit = 1 ∧ s'.calls = s.calls ∧ s'.found = s.found ∧ s'.runs = s.runs)
      ∧ (b.failed = false → ∃ modules p backend sk, order.Accepts s.tree modules p
        ∧ Backend.ofTarget? order.target = some backend ∧ p.sketch backend = .ok sk
        ∧ ∃ files : FileTree, files.Holds (generatedFile s.tree.home order.output) sk.code
          ∧ let compiled := resultOf s.runs.head?
            let calls := s.calls ++ callsOf (compileCommand s.tree.home order fqbn) s.runs.head?
            let compiles := s'.calls = calls ∧ s'.found = s.found ++ [files]
              ∧ s'.runs = s.runs.tail
            (∀ run ∈ s.runs.head?,
              Waited run (callsOf (compileCommand s.tree.home order fqbn) s.runs.head?))
            ∧ (compiled ≠ 0 ∨ upload = false → exit = compiled ∧ compiles)
            ∧ (compiled = 0 → upload = true → (port = none ∨ port = some "") →
              exit = 2 ∧ compiles)
            ∧ ∀ name, compiled = 0 → upload = true → port = some name → name ≠ "" →
              let second := s.runs.tail.head?
              let uploads := callsOf (uploadCommand s.tree.home order fqbn name) second
              exit = resultOf second ∧ s'.calls = calls ++ uploads
                ∧ (∃ later, s'.found = s.found ++ [files, later]) ∧ s'.runs = s.runs.tail.tail
                ∧ ∀ run ∈ second, Waited run uploads) := by
  obtain ⟨b, s₀, hbuild, hrest⟩ := Ends.bind h
  obtain ⟨hrun, hruns, hcalls, hfound⟩ := ends_buildAndPrint hbuild
  refine ⟨b, s₀.tree, hrun, fun hfailed => ?_, fun hquiet => ?_⟩
  · rw [if_pos hfailed] at hrest
    cases hrest
    exact ⟨rfl, hcalls, hfound, hruns⟩
  rw [if_neg (Bool.eq_false_iff.mp hquiet)] at hrest
  obtain ⟨modules, p, backend, sk, haccepts, hbackend, hsketch, hwrites⟩ := published hrun hquiet
  obtain ⟨compiled, s₁, hcompile, hrest⟩ := hrest.bind
  obtain ⟨sketch, started, hmake, htool⟩ := hcompile.bind
  obtain ⟨rfl, hruns₁, hcalls₁, hfound₁, hhome₁, hcode⟩ := hmake.makeSketch
  have hholds := hcode _ hwrites.holds_self (haccepts.code_lineFeeds hsketch)
  rw [hwrites.home] at hholds htool hhome₁
  -- the compilation starts from the files in which the sketch was just made
  obtain ⟨htree, hruns₂, hcalls₂, hfound₂, hcompiled⟩ := htool.runTool
  rw [hruns₁, hruns] at hruns₂ hcalls₂ hcompiled
  rw [hcalls₁, hcalls] at hcalls₂
  rw [hfound₁, hfound] at hfound₂
  refine ⟨modules, p, backend, sk, haccepts, hbackend, hsketch, started.tree, hholds,
    waited_of_mem, fun hstop => ?_, fun hzero hask hport => ?_,
      fun name hzero hask hport hname => ?_⟩
  all_goals rw [← hcompiled] at *
  · split at hrest
    · cases hrest
      exact ⟨rfl, hcalls₂, hfound₂, hruns₂⟩
    · rename_i hzero
      rcases hstop with hne | rfl
      · exact absurd (bne_iff_ne.mpr hne) hzero
      · cases hrest
        have hsame : compiled = 0 := by simpa using hzero
        exact ⟨hsame.symm, hcalls₂, hfound₂, hruns₂⟩
  all_goals subst hzero
  · subst hask
    have hnone : port.filter (· != "") = none := by
      rcases hport with rfl | rfl <;> rfl
    rw [hnone] at hrest
    obtain ⟨_, s₂, hcomplain, hreturn⟩ := Ends.bind (c := complain _) hrest
    have htells := hcomplain.complain
    cases hreturn
    exact ⟨rfl, htells.calls.trans hcalls₂, htells.found.trans hfound₂, htells.runs.trans hruns₂⟩
  · subst hask hport
    have hsome : (some name).filter (· != "") = some name := by simpa using hname
    rw [hsome] at hrest
    obtain ⟨_, s₂, hmake₂, htool₂⟩ := Ends.bind (c := makeSketch _) hrest
    obtain ⟨rfl, hruns₃, hcalls₃, hfound₃, -, -⟩ := hmake₂.makeSketch
    rw [htree, hhome₁] at htool₂
    obtain ⟨-, hruns₄, hcalls₄, hfound₄, hexit⟩ := htool₂.runTool
    rw [hruns₃, hruns₂] at hruns₄ hcalls₄ hexit
    rw [hcalls₃, hcalls₂] at hcalls₄
    rw [hfound₃, hfound₂, List.append_assoc] at hfound₄
    exact ⟨hexit, hcalls₄, ⟨s₂.tree, hfound₄⟩, hruns₄, waited_of_mem⟩

/-- The exit code of a request that ends with one, and the calls that were
made. -/
def outcome? (request : Request) (s : Session) : Option (Int × List Call) :=
  match request.run.run.run s with
  | (.ok exit, s') => some (exit, s'.calls)
  | (.error _, _) => none

/-- The order to build a small program. -/
def smallOrder : BuildOrder :=
  { source := .ofString "main.nova", output := .ofString "main.cpp" }

/-- The small program, and a toolchain that compiles it but is interrupted
and gets stuck when it uploads it. -/
def stuckSession : Session where
  tree := { home := ⟨"/", []⟩, entries := [(["main.nova"], .file (.text "let x = 1;\r\n"))] }
  runs := [{ output := "compiled\n" }, { interrupted := true, stuck := true }]

/-- The upload is attempted behind the compilation, and the stuck process
is killed and waited for. -/
theorem build_protocol_stuck :
    ∃ s', (Request.build smallOrder "b" true (some "p")).run.run.run stuckSession = (.ok 130, s')
      ∧ s'.calls = callsOf (compileCommand ⟨"/", []⟩ smallOrder "b")
        (some { output := "compiled\n" })
        ++ callsOf (uploadCommand ⟨"/", []⟩ smallOrder "b" "p")
          (some { interrupted := true, stuck := true })
      ∧ ∃ (sk : Sketch) (files later : FileTree), s'.found = [files, later]
        ∧ files.Holds (generatedFile ⟨"/", []⟩ smallOrder.output) sk.code := by
  have hends : outcome? (.build smallOrder "b" true (some "p")) stuckSession
      = some (130, callsOf (compileCommand ⟨"/", []⟩ smallOrder "b")
        (some { output := "compiled\n" })
        ++ callsOf (uploadCommand ⟨"/", []⟩ smallOrder "b" "p")
          (some { interrupted := true, stuck := true })) := by
    decide +kernel
  unfold outcome? at hends
  split at hends
  · rename_i exit s' hrun
    obtain ⟨rfl, hcalls⟩ := Prod.mk.inj (Option.some.inj hends)
    obtain ⟨b, -, -, hfailed, hquiet⟩ := build_protocol hrun
    have hb : b.failed = false := Bool.eq_false_iff.mpr fun h => absurd (hfailed h).1 (by decide)
    obtain ⟨-, -, -, sk, -, -, -, files, hholds, -, -, -, huploads⟩ := hquiet hb
    obtain ⟨-, -, ⟨later, hfound⟩, -⟩ := huploads "p" (by decide) rfl rfl (by decide)
    exact ⟨s', hrun, hcalls, sk, files, later, hfound, hholds⟩
  · cases hends

-- ==== checks

theorem unchanged_of_failed (h : order.run.run t = (.ok b, t')) (hfailed : b.failed = true) :
    t' = t := by
  rcases BuildOrder.Ends.run h with ⟨_, hfault, -, -⟩ | ⟨_, -, -, -, hsame⟩
    | ⟨_, _, messages, _, _, result, -, hquiet, -, -, -, hb⟩
  · cases hfault
  · exact hsame
  · cases result with
    | error _ => cases hb
    | ok _ =>
      cases hb
      exact absurd (hfailed.symm.trans hquiet) (by decide)

/-- A fault leaves directories above the output behind at most, and those
only if it is about a file. -/
theorem grows_of_fault (h : order.run.run t = (.error fault, t')) :
    t.Grows order.output.parent t' ∧ (t' = t ∨ ∃ f, fault = .file f) := by
  rcases BuildOrder.Ends.run h with ⟨_, -, -, rfl⟩ | ⟨_, hb, -, -, -⟩
    | ⟨_, _, _, _, _, result, -, -, -, -, hpublish, hfault⟩
  · exact ⟨.refl, .inl rfl⟩
  · cases hb
  rcases hpublish.publish with ⟨f, hmake, rfl⟩ | ⟨f, hmake, rfl⟩ | ⟨_, -, -, rfl⟩
  · cases hfault
    exact ⟨(FileTree.makeDirectory_grows hmake).1, .inr ⟨f, rfl⟩⟩
  · cases hfault
    exact ⟨(FileTree.makeDirectory_grows hmake).1, .inr ⟨f, rfl⟩⟩
  · cases hfault

theorem run_check (order : BuildOrder) (s : Session) :
    (check order).run.run.run s
      = ((buildAndPrint order).run.run s).map (·.map fun b => if b.failed then 1 else 0) id := by
  change (buildAndPrint order >>= fun b => pure (if b.failed then 1 else 0) :
    Command Int).run.run s = _
  rw [ExceptT.run_bind, StateT.run_bind]
  rcases (buildAndPrint order).run.run s with ⟨_ | _, _⟩ <;> rfl

/-- What a check does, for every order and file tree.

If it ends, its messages are printed and nothing is started.  The exit
code is 1 with the files as they were if one of the messages is an error,
and 0 with the code of the accepted program published if none is.
Otherwise it ends with a fault and nothing printed, and the files are as
they were but for directories above the output, if a file could not be
written. -/
theorem check_outcome (order : BuildOrder) (s : Session) :
    (∃ exit tree messages, (check order).run.run.run s
        = (.ok exit, Session.printed { s with tree } messages)
      ∧ (exit = 1 ∧ (∃ m ∈ messages, m.isError = true) ∧ tree = s.tree
        ∨ exit = 0 ∧ (∀ m ∈ messages, m.isError = false)
          ∧ ∃ modules p backend sk, order.Accepts s.tree modules p
            ∧ Backend.ofTarget? order.target = some backend ∧ p.sketch backend = .ok sk
            ∧ s.tree.Writes order.output sk.code tree))
    ∨ ∃ fault tree, (check order).run.run.run s = (.error (.build fault), { s with tree })
      ∧ s.tree.Grows order.output.parent tree ∧ (tree = s.tree ∨ ∃ f, fault = .file f) := by
  rw [run_check]
  rcases hrun : order.run.run s.tree with ⟨fault | b, tree⟩
  · rw [run_buildAndPrint_error hrun]
    exact .inr ⟨fault, tree, rfl, grows_of_fault hrun⟩
  · rw [run_buildAndPrint_ok hrun]
    refine .inl ⟨_, tree, b.messages, rfl, ?_⟩
    cases hfailed : b.failed with
    | true =>
      exact .inl ⟨if_pos hfailed, List.any_eq_true.mp hfailed, unchanged_of_failed hrun hfailed⟩
    | false =>
      refine .inr ⟨if_neg (Bool.eq_false_iff.mp hfailed), fun m hm => ?_, published hrun hfailed⟩
      exact Bool.eq_false_iff.mpr (List.any_eq_false.mp hfailed m hm)

/-- The exit code of a request, and the places where something is new. -/
def leaves (request : Request) (s : Session) : Option Int × List (List String) :=
  let (outcome, s') := request.run.run.run s
  (outcome.toOption, (s'.tree.entries.map (·.1)).filter fun names => (s.tree.entry? names).isNone)

/-- The check of the small program is not read-only: it makes a directory
and a file. -/
theorem check_publishes :
    ofArguments ["check", "main.nova"]
        = .ok (.check { smallOrder with output := .ofString defaultOutput })
      ∧ leaves (.check { smallOrder with output := .ofString defaultOutput }) stuckSession
        = (some 0, [["build"], ["build", "main.cpp"]]) := by
  decide +kernel

end Request

end SketchCompiler
