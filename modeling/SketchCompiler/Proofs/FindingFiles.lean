/-
The files that findings about several modules name.  A program put
together from modules keeps the file of every declaration, so whatever a
visit finds is in the file of the module that it found it in.  What is
found while declarations are collected is not: no file has been entered by
then, and a function declared in two modules is reported in none of them
(`ModuleGraph.merge_findings`).
-/
import SketchCompiler.Proofs.ImportOrder
import SketchCompiler.Proofs.SourcePlaces

namespace SketchCompiler.ModuleGraph

/-- Every module is read from a text under its own path. -/
def Parsed (g : ModuleGraph) : Prop :=
  ∀ m ∈ g.modules, ∃ text, Program.ofSource m.path.text text = .ok m.source

theorem parsed_of_load (h : load t p = .ok m) :
    ∃ text, Program.ofSource m.path.text text = .ok m.source := by
  unfold load at h
  cases hread : t.read p with
  | error e =>
    rw [hread] at h
    cases h
  | ok text =>
    simp only [hread, Except.mapError, bind, Except.bind] at h
    split at h
    · cases h
    · rename_i source hsource
      cases h
      split at hsource
      · cases hsource
      · rename_i hok
        cases hsource
        exact ⟨text, hok⟩

theorem Sound.parsed (h : Sound t extension root g) : g.Parsed :=
  fun m hm => parsed_of_load (h.loaded m hm)

theorem mem_merge {g : ModuleGraph} {entry : Path} {d : Stmt}
    (h : d ∈ (g.merge entry).declarations) :
    ∃ m ∈ g.modules, d ∈ m.source.program.declarations := by
  obtain ⟨p, -, hd⟩ := List.mem_flatMap.mp h
  cases hm : g.module? p with
  | none =>
    rw [hm] at hd
    cases hd
  | some m =>
    rw [hm] at hd
    exact ⟨m, List.mem_of_find?_eq_some hm, (List.mem_filter.mp hd).1⟩

theorem Parsed.file_eq {g : ModuleGraph} (h : g.Parsed) {m : Module} (hm : m ∈ g.modules)
    {d : Stmt} (hd : d ∈ m.source.program.declarations) :
    ∀ s ∈ d.spans, s.file = m.path.text := by
  obtain ⟨text, hsource⟩ := h m hm
  obtain ⟨_, -, -, hspans, -⟩ := Program.ofSource_stands hsource
  exact fun s hs => (hspans s (Program.mem_spans hd hs)).1

/-- The findings about a merged program, each with the declaration that it
was found at, are at the start of a span of that declaration.  They are in
the file of the declaration, which is that of its module, but for those
that are found while declarations are collected: these are in no file. -/
theorem merge_findings {g : ModuleGraph} (h : g.Parsed) (entry : Path) (board : String) :
    ((g.merge entry).attributed board).map (·.2) = ((g.merge entry).analyze board).issues
      ∧ ∀ d i, (d, i) ∈ (g.merge entry).attributed board →
        (∃ m ∈ g.modules, d ∈ m.source.program.declarations ∧ d.span.file = m.path.text)
          ∧ (∃ s ∈ d.spans, s.start = i.place)
          ∧ i.file = if i.finding.isDeclaring then "<input>" else d.span.file := by
  refine ⟨Program.attributed_issues _ _, fun d i hi => ?_⟩
  have hfile : ∀ d ∈ (g.merge entry).declarations, ∀ s ∈ d.spans, s.file = d.span.file := by
    intro d hd s hs
    obtain ⟨m, hm, hd⟩ := mem_merge hd
    rw [h.file_eq hm hd s hs, h.file_eq hm hd d.span d.span_mem_spans]
  obtain ⟨hd, hat⟩ := Program.mem_attributed hfile hi
  obtain ⟨m, hm, hd⟩ := mem_merge hd
  exact ⟨⟨m, hm, hd, h.file_eq hm hd d.span d.span_mem_spans⟩, hat.place, hat.file⟩

/-- Two files that declare the same function; one of them also returns a
name that is not declared. -/
def clashTree : FileTree :=
  { home := ⟨"/", []⟩
    entries := [(["lib.nova"], .file (.text "fn f() -> int \x7b return 1; \x7d")),
                (["main.nova"], .file (.text
                  "import \"lib\";\nfn f() -> int \x7b return x; \x7d"))] }

/-- The files that the findings about an entry name, each with the file of
its declaration. -/
def namedFiles (t : FileTree) (entry : Path) : List (String × String) :=
  match outcome (addEntry t defaultExtension entry) {} with
  | (.ok root, g) => ((g.merge root).attributed "esp32").map fun (d, i) => (i.file, d.span.file)
  | (.error _, _) => []

/-- What is found in the modules of two files is where it should be. -/
theorem merge_findings_clash :
    ∃ root g, outcome (addEntry clashTree defaultExtension (.ofString "main.nova")) {}
      = (.ok root, g)
      ∧ ∀ d i, (d, i) ∈ (g.merge root).attributed "esp32" →
        i.file = if i.finding.isDeclaring then "<input>" else d.span.file := by
  obtain ⟨root, g, hrun⟩ := exists_outcome_ok (g := {})
    (v := addEntry clashTree defaultExtension (.ofString "main.nova")) (by decide +kernel)
  obtain ⟨-, -, hsound, -⟩ := addEntry_sound hrun
  exact ⟨root, g, hrun, fun d i hi => ((merge_findings hsound.parsed root "esp32").2 d i hi).2.2⟩

/-- The function that both declare is reported in no file, the name that
is not declared in the file where it stands. -/
theorem merge_findings_stray :
    namedFiles clashTree (.ofString "main.nova")
      = [("<input>", "/main.nova"), ("/main.nova", "/main.nova"),
         ("/main.nova", "/main.nova")] := by
  decide +kernel

end SketchCompiler.ModuleGraph
