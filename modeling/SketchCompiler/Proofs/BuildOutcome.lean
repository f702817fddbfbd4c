/-
What a build leaves behind.  A build that reports an error leaves the file
tree as it was; one that reports none has published exactly the code of
the merged program (`BuildOrder.run_publishes`).

# Faults

A build without an outcome leaves the tree as it was as well, as long as
it has not started to make the directory of its output.  From then on
directories may have been added on the way there, and nothing else: the
making itself can fail behind two dots, when it has already made other
directories (`BuildOrder.run_keeps_parents`).
-/
import SketchCompiler.Build
import SketchCompiler.Proofs.ImportOrder
import SketchCompiler.Proofs.Lowering

namespace SketchCompiler

open Relation ModuleGraph

open List hiding merge

variable {source : Path}

-- ==== graphs without findings

namespace ModuleGraph

variable {t : FileTree} {extension : String} {g : ModuleGraph} {p root : Path}

theorem Sound.exists_module (h : Sound t extension root g) (hp : p ∈ g.order) :
    ∃ m, load t p = .ok m ∧ m ∈ g.modules ∧ g.module? p = some m := by
  obtain ⟨m', hm', hpath⟩ := mem_map.mp (h.keys.mem_iff.mpr (mem_append_left _ hp))
  have hsome : (g.modules.find? (·.path == p)).isSome := by
    rw [find?_isSome]
    exact ⟨m', hm', by rw [hpath, beq_self_eq_true]⟩
  obtain ⟨m, hm⟩ := Option.isSome_iff_exists.mp hsome
  have hmem := mem_of_find?_eq_some hm
  have hkey : m.path = p := by
    have hfound := find?_some hm
    exact eq_of_beq hfound
  refine ⟨m, ?_, hmem, hm⟩
  rw [← hkey]
  exact h.loaded m hmem

theorem Sound.import_before (h : Sound t extension root g) (hvisiting : g.visiting = [])
    (hissues : g.issues = []) (hp : p ∈ g.order) (hedge : ImportsTo t extension p q) :
    q ∈ g.order ∧ g.order.idxOf q < g.order.idxOf p := by
  obtain ⟨hq, hlt | ⟨issue, hmem, -⟩⟩ := h.importsTo_cases hvisiting hp hedge
  · exact ⟨hq, hlt⟩
  · rw [hissues] at hmem
    cases hmem

theorem Sound.import_resolved (h : Sound t extension root g) (hvisiting : g.visiting = [])
    (hissues : g.issues = []) (hm : m ∈ g.modules) (hi : i ∈ m.imports) :
    ∃ q, resolveImport t extension m.path.parent i.path = some q := by
  obtain ⟨before, -, hsettled⟩ := h.import_settled hvisiting hm hi
  cases hsettled with
  | unresolved _ hissue =>
    rw [hissues] at hissue
    cases hissue
  | before hresolve _ => exact ⟨_, hresolve⟩
  | circular hresolve _ _ => exact ⟨_, hresolve⟩

theorem Sound.not_hasCycle (h : Sound t extension root g) (hvisiting : g.visiting = [])
    (hissues : g.issues = []) (hroot : root ∈ g.order) : ¬ HasCycle t extension root := by
  rintro ⟨p, hreached, hcycle⟩
  have hp := h.reaches_mem hvisiting hroot hreached
  have hfalls : ∀ q, TransGen (ImportsTo t extension) p q →
      q ∈ g.order ∧ g.order.idxOf q < g.order.idxOf p := by
    intro q hpath
    induction hpath with
    | single hedge => exact h.import_before hvisiting hissues hp hedge
    | tail _ hedge ih =>
      obtain ⟨hq, hlt⟩ := h.import_before hvisiting hissues ih.1 hedge
      exact ⟨hq, Nat.lt_trans hlt ih.2⟩
  exact Nat.lt_irrefl _ (hfalls p hcycle).2

theorem root_mem_order (h : outcome (addEntry t extension entry) {} = (.ok root, g))
    (hissues : g.issues = []) : root ∈ g.order := by
  obtain ⟨-, hvisit, -, -, horder, -⟩ := addEntry_sound h
  refine horder ?_
  rcases visit_cases hvisit with ⟨hmem, -⟩ | ⟨-, hmem, -⟩ | ⟨-, -, -, rfl⟩ | ⟨-, -, hfound, -⟩
  · cases hmem
  · cases hmem
  · cases hissues
  · exact hfound

end ModuleGraph

-- ==== accepted programs

namespace BuildOrder

/-- What the module at a path declares itself. -/
def ownDeclarations (t : FileTree) (p : Path) : List Stmt :=
  match load t p with
  | .error _ => []
  | .ok m => m.source.program.declarations.filter fun
    | .importDecl .. => false
    | _ => true

/-- The modules of an entry form a program without an error: all that it
reaches can be read, scanned and parsed, every import means something,
there is no cycle, and the analysis of all declarations finds no error.
The modules are listed once each, behind those they import. -/
structure Accepts (order : BuildOrder) (t : FileTree) (modules : List Path) (p : Program) :
    Prop where
  nodup : modules.Nodup
  reached : ∀ q, q ∈ modules
    ↔ ReflTransGen (ImportsTo t defaultExtension) (t.home.resolve order.source) q
  clean : ∀ q ∈ modules, ∃ m, load t q = .ok m
    ∧ m.source.scanErrors = [] ∧ m.source.parseErrors = []
    ∧ ∀ i ∈ m.imports, ∃ target, resolveImport t defaultExtension q.parent i.path = some target
  acyclic : ¬ HasCycle t defaultExtension (t.home.resolve order.source)
  before : ∀ q target, q ∈ modules → ImportsTo t defaultExtension q target →
    modules.idxOf target < modules.idxOf q
  declarations : p.declarations = modules.flatMap (ownDeclarations t)
  span : ∃ m, load t (t.home.resolve order.source) = .ok m ∧ p.span = m.source.program.span
  analysed : ∀ issue ∈ (p.analyze order.board).issues, issue.severity ≠ .error

/-- The messages of the stages before generation. -/
def messages (g : ModuleGraph) (semantic : List Message) : List Message :=
  Build.graphMessages g ++ g.modules.flatMap Build.sourceMessages ++ semantic

variable {order : BuildOrder} {t t' : FileTree} {root : Path} {g : ModuleGraph}
  {semantic : List Message}

theorem clean_of_messages (h : (messages g semantic).any (·.isError) = false) :
    g.issues = []
      ∧ (∀ m ∈ g.modules, m.source.scanErrors = [] ∧ m.source.parseErrors = [])
      ∧ ∀ m ∈ semantic, m.isError = false := by
  have hall : ∀ m ∈ messages g semantic, m.isError = false := by
    intro m hm
    have hnone := any_eq_false.mp h m hm
    exact Bool.eq_false_iff.mpr hnone
  unfold messages at hall
  refine ⟨?_, fun m hm => ⟨?_, ?_⟩, fun m hm => hall m (mem_append_right _ hm)⟩
  · refine eq_nil_iff_forall_not_mem.mpr fun issue hissue => ?_
    have herror := hall _ (mem_append_left _ (mem_append_left _
      (mem_map_of_mem hissue)))
    cases herror
  · refine eq_nil_iff_forall_not_mem.mpr fun e he => ?_
    have herror := hall _ (mem_append_left _ (mem_append_right _
      (mem_flatMap.mpr ⟨m, hm, mem_append_left _ (mem_map_of_mem he)⟩)))
    cases herror
  · refine eq_nil_iff_forall_not_mem.mpr fun e he => ?_
    have herror := hall _ (mem_append_left _ (mem_append_right _
      (mem_flatMap.mpr ⟨m, hm, mem_append_right _ (mem_map_of_mem he)⟩)))
    cases herror

theorem analysed_of_messages {a : Analysis} (h : Build.analysisMessages source a = .ok semantic)
    (hsemantic : ∀ m ∈ semantic, m.isError = false) :
    ∀ issue ∈ a.issues, issue.severity ≠ .error := by
  intro issue hissue herror
  obtain ⟨m, hm, hmessage⟩ := mapM_ok_mem h issue hissue
  obtain ⟨text, -, hm'⟩ := bind_eq_ok.mp hmessage
  have hnot := hsemantic m hm
  rw [← pure_eq_ok.mp hm'] at hnot
  unfold Message.isError at hnot
  rw [herror] at hnot
  cases hnot

theorem accepts_of_messages
    (hgraph : outcome (addEntry t defaultExtension order.source) {} = (.ok root, g))
    (hsemantic : Build.analysisMessages order.source ((g.merge root).analyze order.board)
      = .ok semantic)
    (h : (messages g semantic).any (·.isError) = false) :
    order.Accepts t g.order (g.merge root) := by
  obtain ⟨hissues, hclean, hsevere⟩ := clean_of_messages h
  obtain ⟨rfl, -, hsound, hvisiting, -, -⟩ := addEntry_sound hgraph
  have hroot := root_mem_order hgraph hissues
  have hknown : g.order ++ g.visiting = g.order := by rw [hvisiting, append_nil]
  constructor
  case nodup => exact hknown ▸ hsound.nodup
  case reached =>
    intro q
    constructor
    · exact fun hq => hsound.reached q (mem_append_left _ hq)
    · exact fun hq => hsound.reaches_mem hvisiting hroot hq
  case clean =>
    intro q hq
    obtain ⟨m, hload, hm, -⟩ := hsound.exists_module hq
    refine ⟨m, hload, (hclean m hm).1, (hclean m hm).2, fun i hi => ?_⟩
    rw [← load_path hload]
    exact hsound.import_resolved hvisiting hissues hm hi
  case acyclic => exact hsound.not_hasCycle hvisiting hissues hroot
  case before => exact fun q target hq hedge => (hsound.import_before hvisiting hissues hq hedge).2
  case declarations =>
    refine flatMap_congr fun q hq => ?_
    obtain ⟨m, hload, -, hfound⟩ := hsound.exists_module hq
    unfold ownDeclarations
    rewrite [hfound, hload]
    rfl
  case span =>
    obtain ⟨m, hload, -, hfound⟩ := hsound.exists_module hroot
    refine ⟨m, hload, ?_⟩
    unfold merge
    rw [hfound]
  case analysed => exact analysed_of_messages hsemantic hsevere

-- ==== the stages

/-- How a piece of work ends, from a file tree to a file tree. -/
def Ends {α : Type} (w : Build.Work α) (t : FileTree) (result : Except BuildFault α)
    (t' : FileTree) : Prop :=
  w.run.run t = (result, t')

theorem Ends.bind (h : Ends (w >>= f) t result t') :
    (∃ fault, Ends w t (.error fault) t' ∧ result = .error fault)
      ∨ ∃ a t₁, Ends w t (.ok a) t₁ ∧ Ends (f a) t₁ result t' := by
  unfold Ends at h ⊢
  rw [ExceptT.run_bind, StateT.run_bind] at h
  rcases hw : w.run.run t with ⟨fault | a, t₁⟩
  · rw [hw] at h
    cases h
    exact .inl ⟨fault, rfl, rfl⟩
  · rw [hw] at h
    exact .inr ⟨a, t₁, rfl, h⟩

theorem Ends.orFault (h : Ends (Build.orFault fault x) t result t') :
    t' = t ∧ ((∃ e, result = .error (fault e)) ∨ ∃ a, x = .ok a ∧ result = .ok a) := by
  cases x with
  | error e =>
    cases h
    exact ⟨rfl, .inl ⟨e, rfl⟩⟩
  | ok a =>
    cases h
    exact ⟨rfl, .inr ⟨a, rfl, rfl⟩⟩

theorem Ends.graph {result : Except BuildFault (Path × ModuleGraph)}
    (h : Ends (Build.graph source) t result t') :
    t' = t ∧ ((∃ fault, result = .error (.module fault))
      ∨ ∃ root g, outcome (addEntry t defaultExtension source) {} = (.ok root, g)
        ∧ result = .ok (root, g)) := by
  obtain ⟨_, hget, -⟩ | ⟨tree, t₁, hget, hrest⟩ := h.bind
  · cases hget
  cases hget
  have hrun : (addEntry t defaultExtension source).run {}
      = outcome (addEntry t defaultExtension source) {} := rfl
  rw [hrun] at hrest
  rcases hgraph : outcome (addEntry t defaultExtension source) {} with ⟨fault | root, g⟩
  · rw [hgraph] at hrest
    cases hrest
    exact ⟨rfl, .inl ⟨fault, rfl⟩⟩
  · rw [hgraph] at hrest
    cases hrest
    exact ⟨rfl, .inr ⟨root, g, rfl, rfl⟩⟩

/-- How a change of the tree ends. -/
theorem Ends.change (h : Ends (Build.change f) t result t') :
    (∃ fault, f t = (.error fault, t') ∧ result = .error (.file fault))
      ∨ f t = (.ok (), t') ∧ result = .ok () := by
  obtain ⟨_, hget, -⟩ | ⟨tree, t₁, hget, hrest⟩ := h.bind
  · cases hget
  cases hget
  rcases hf : f t with ⟨fault | _, t₁⟩
  · rw [hf] at hrest
    cases hrest
    exact .inl ⟨fault, rfl, rfl⟩
  · rw [hf] at hrest
    cases hrest
    exact .inr ⟨rfl, rfl⟩

/-- How publishing ends: the directory of the output cannot be made, or
the output cannot be written to it, or it is written. -/
theorem Ends.publish {output : Path} {code : String} {result : Except BuildFault Unit}
    (h : Ends (Build.publish output code) t result t') :
    (∃ fault, t.makeDirectory output.parent = (.error fault, t') ∧ result = .error (.file fault))
      ∨ (∃ fault, t.makeDirectory output.parent = (.ok (), t') ∧ result = .error (.file fault))
      ∨ ∃ t₁, t.makeDirectory output.parent = (.ok (), t₁) ∧ t₁.write output code = .ok t'
        ∧ result = .ok () := by
  obtain ⟨_, hmake, rfl⟩ | ⟨_, t₁, hmake, hwrite⟩ := h.bind
  · rcases hmake.change with ⟨fault, hmade, hfault⟩ | ⟨-, hfault⟩
    · cases hfault
      exact .inl ⟨fault, hmade, rfl⟩
    · cases hfault
  rcases hmake.change with ⟨_, -, hfault⟩ | ⟨hmade, -⟩
  · cases hfault
  rcases hwrite.change with ⟨fault, hwritten, rfl⟩ | ⟨hwritten, rfl⟩
  · rcases FileTree.orUnchanged_cases hwritten with ⟨-, -, -, rfl⟩ | ⟨-, hfault⟩
    · exact .inr (.inl ⟨fault, hmade, rfl⟩)
    · cases hfault
  · rcases FileTree.orUnchanged_cases hwritten with ⟨_, -, hfault, -⟩ | ⟨hwritten, -⟩
    · cases hfault
    · exact .inr (.inr ⟨t₁, hmade, hwritten, rfl⟩)

/-- How generation ends: without a change and with a fault or an error,
or as the publishing of the generated code does. -/
theorem Ends.generate {messages : List Message} {p : Program} {result : Except BuildFault Build}
    (h : Ends (Build.generate order messages p) t result t') :
    (∃ fault, result = .error fault ∧ (∀ f, fault ≠ .file f) ∧ t' = t)
      ∨ (∃ b, result = .ok b ∧ b.failed = true ∧ b.lineMap = [] ∧ t' = t)
      ∨ ∃ backend sketch published, Backend.ofTarget? order.target = some backend
        ∧ p.sketch backend = .ok sketch
        ∧ Ends (Build.publish order.output sketch.code) t published t'
        ∧ result = published.map fun _ => { messages, lineMap := sketch.lineMap } := by
  unfold Build.generate at h
  cases hbackend : Backend.ofTarget? order.target with
  | none =>
    rw [hbackend] at h
    cases h
    exact .inl ⟨_, rfl, nofun, rfl⟩
  | some backend =>
    rw [hbackend] at h
    dsimp only at h
    split at h
    · rename_i sketch hsketch
      refine .inr (.inr ⟨backend, sketch, ?_⟩)
      obtain ⟨fault, hpublish, rfl⟩ | ⟨_, t₁, hpublish, hreturn⟩ := h.bind
      · exact ⟨_, rfl, hsketch, hpublish, rfl⟩
      · cases hreturn
        exact ⟨_, rfl, hsketch, hpublish, rfl⟩
    · cases h
      refine .inr (.inl ⟨_, rfl, ?_, rfl, rfl⟩)
      unfold Build.failed
      rw [any_append]
      exact Bool.or_true _
    · cases h
      exact .inl ⟨_, rfl, nofun, rfl⟩
    · cases h
      exact .inl ⟨_, rfl, nofun, rfl⟩

/-- How a build ends: without a change and with a fault or an error, or
with an accepted program, as the publishing of its code does. -/
theorem Ends.run {result : Except BuildFault Build} (h : Ends order.run t result t') :
    (∃ fault, result = .error fault ∧ (∀ f, fault ≠ .file f) ∧ t' = t)
      ∨ (∃ b, result = .ok b ∧ b.failed = true ∧ b.lineMap = [] ∧ t' = t)
      ∨ ∃ modules p messages backend sketch published, order.Accepts t modules p
        ∧ messages.any (·.isError) = false
        ∧ Backend.ofTarget? order.target = some backend ∧ p.sketch backend = .ok sketch
        ∧ Ends (Build.publish order.output sketch.code) t published t'
        ∧ result = published.map fun _ => { messages, lineMap := sketch.lineMap } := by
  obtain ⟨_, hgraph, rfl⟩ | ⟨⟨root, g⟩, t₁, hgraph, hrest⟩ := h.bind
  · obtain ⟨rfl, ⟨fault, hfault⟩ | ⟨_, _, -, hfault⟩⟩ := hgraph.graph
    · cases hfault
      exact .inl ⟨_, rfl, nofun, rfl⟩
    · cases hfault
  obtain ⟨rfl, ⟨_, hfault⟩ | ⟨_, _, hgraph, hpair⟩⟩ := hgraph.graph
  · cases hfault
  cases hpair
  obtain ⟨_, hsemantic, rfl⟩ | ⟨semantic, t₂, hsemantic, hstages⟩ := hrest.bind
  · obtain ⟨rfl, ⟨_, hfault⟩ | ⟨_, -, hfault⟩⟩ := hsemantic.orFault
    · cases hfault
      exact .inl ⟨_, rfl, nofun, rfl⟩
    · cases hfault
  obtain ⟨rfl, ⟨_, hfault⟩ | ⟨_, hsemantic, hsame⟩⟩ := hsemantic.orFault
  · cases hfault
  cases hsame
  change Ends (if (messages g semantic).any (·.isError) then _ else _) _ _ _ at hstages
  by_cases herror : (messages g semantic).any (·.isError) = true
  · rw [if_pos herror] at hstages
    cases hstages
    exact .inr (.inl ⟨_, rfl, herror, rfl, rfl⟩)
  · rw [if_neg herror] at hstages
    have hclean := Bool.eq_false_iff.mpr herror
    rcases hstages.generate with hfault | hfailed | ⟨backend, sketch, published, hgenerate⟩
    · exact .inl hfault
    · exact .inr (.inl hfailed)
    · exact .inr (.inr ⟨g.order, g.merge root, _, backend, sketch, published,
        accepts_of_messages hgraph hsemantic hclean, hclean, hgenerate⟩)

-- ==== publication

/-- Failed builds leave no trace and successful ones publish exactly the
generated code.

A build that reports an error leaves the file tree as it was, and its line
map is empty.  A build without an outcome adds directories on the way to
the output at most, and none if it fails for another reason than a fault
of a file, or without having made the output's directory, where the way
there has no two dots.  A build that reports no error was given a program
without an error, and the tree differs in the output, which holds the
generated code, and in new directories above it. -/
theorem run_publishes {result : Except BuildFault Build} (h : order.run.run t = (result, t')) :
    (∀ b, result = .ok b → b.failed = true → t' = t ∧ b.lineMap = [])
      ∧ (∀ fault, result = .error fault → t.Grows order.output.parent t'
        ∧ ((∀ f, fault ≠ .file f) → t' = t)
        ∧ (¬ t'.HasDirectory order.output.parent → t.Rooted →
          ".." ∉ (t.home.join order.output.parent).names → t' = t))
      ∧ ∀ b, result = .ok b → b.failed = false → ∃ modules p backend sketch,
        order.Accepts t modules p ∧ Backend.ofTarget? order.target = some backend
          ∧ p.sketch backend = .ok sketch ∧ t.Writes order.output sketch.code t'
          ∧ b.lineMap = sketch.lineMap := by
  rcases Ends.run h with ⟨_, rfl, hnot, rfl⟩ | ⟨_, rfl, hfailed, hempty, rfl⟩
    | ⟨modules, p, messages, backend, sketch, published, haccepts, hclean, hbackend, hsketch,
      hpublish, rfl⟩
  · refine ⟨nofun, fun fault hfault => ?_, nofun⟩
    cases hfault
    exact ⟨.refl, fun _ => rfl, fun _ _ _ => rfl⟩
  · refine ⟨fun b hb _ => ?_, nofun, fun b hb hquiet => ?_⟩
    · cases hb
      exact ⟨rfl, hempty⟩
    · cases hb
      rw [hfailed] at hquiet
      cases hquiet
  rcases hpublish.publish with ⟨fault, hmake, rfl⟩ | ⟨fault, hmake, rfl⟩ | ⟨t₁, hmake, hwrite, rfl⟩
  · obtain ⟨hgrows, -⟩ := FileTree.makeDirectory_grows hmake
    refine ⟨nofun, fun fault' hfault => ?_, nofun⟩
    cases hfault
    exact ⟨hgrows, fun hnot => absurd rfl (hnot fault), fun _ hrooted hdots =>
      FileTree.makeDirectory_error_unchanged hrooted hdots hmake⟩
  · obtain ⟨hgrows, hmade⟩ := FileTree.makeDirectory_grows hmake
    refine ⟨nofun, fun fault' hfault => ?_, nofun⟩
    cases hfault
    refine ⟨hgrows, fun hnot => absurd rfl (hnot fault), fun hmissing _ _ => ?_⟩
    exact (hmade rfl).resolve_right hmissing
  · obtain ⟨hgrows, -⟩ := FileTree.makeDirectory_grows hmake
    refine ⟨fun b hb hfailed => ?_, nofun, fun b hb _ => ?_⟩
    · cases hb
      exact absurd hfailed (Bool.eq_false_iff.mp hclean)
    · cases hb
      exact ⟨modules, p, backend, sketch, haccepts, hbackend, hsketch, hgrows.write hwrite, rfl⟩

/-- A build that ends with an outcome, by whether it reports an error. -/
def endsWith (order : BuildOrder) (t : FileTree) (failed : Bool) : Bool :=
  match (order.run.run t).1 with
  | .ok b => b.failed == failed
  | .error _ => false

theorem exists_of_endsWith (h : order.endsWith t failed = true) :
    ∃ b t', order.run.run t = (.ok b, t') ∧ b.failed = failed := by
  unfold endsWith at h
  rcases hrun : order.run.run t with ⟨fault | b, t'⟩
  · rw [hrun] at h
    cases h
  · rw [hrun] at h
    exact ⟨b, t', rfl, eq_of_beq h⟩

/-- The order to build a file into a directory that is not there yet. -/
def newDirectory : BuildOrder :=
  { source := .ofString "a.nova", output := .ofString "out/a.cpp" }

/-- A file that imports another one is published in a new directory; two
files that import each other leave no trace. -/
theorem run_publishes_pair :
    (∃ b t', newDirectory.run.run pairTree = (.ok b, t') ∧ ∃ modules p backend sketch,
      newDirectory.Accepts pairTree modules p ∧ p.sketch backend = .ok sketch
        ∧ pairTree.Writes newDirectory.output sketch.code t')
      ∧ ∃ b, newDirectory.run.run loopTree = (.ok b, loopTree) := by
  constructor
  · have hends : newDirectory.endsWith pairTree false = true := by decide +kernel
    obtain ⟨b, t', hrun, hquiet⟩ := exists_of_endsWith hends
    obtain ⟨modules, p, backend, sketch, haccepts, -, hsketch, hwrites, -⟩ :=
      (run_publishes hrun).2.2 b rfl hquiet
    exact ⟨b, t', hrun, modules, p, backend, sketch, haccepts, hsketch, hwrites⟩
  · have hends : newDirectory.endsWith loopTree true = true := by decide +kernel
    obtain ⟨b, t', hrun, hfailed⟩ := exists_of_endsWith hends
    obtain ⟨rfl, -⟩ := (run_publishes hrun).1 b rfl hfailed
    exact ⟨b, hrun⟩

/-- The fault of a file that a build ends with. -/
def fileFault? : Except BuildFault Build → Option FileFault
  | .error (.file fault) => some fault
  | _ => none

/-- An empty program and a file that no directory can be made at. -/
def blockedTree : FileTree :=
  { home := ⟨"/", []⟩
    entries := [(["main.nova"], .file (.text "")), (["f"], .file (.text ""))] }

/-- The order to build a file into a directory whose name a file has,
along a directory that is not there. -/
def blockedOutput : BuildOrder :=
  { source := .ofString "main.nova", output := .ofString "a/../f/x.cpp" }

/-- Where the way to the output leads back by two dots and then to a file,
the directory of the output is not made, and one on the way stays. -/
theorem run_keeps_parents :
    ∃ t', blockedOutput.run.run blockedTree
        = (.error (.file (.fileExists blockedOutput.output.parent)), t')
      ∧ ¬ t'.HasDirectory blockedOutput.output.parent
      ∧ blockedTree.entry? ["a"] = none ∧ t'.entry? ["a"] = some .directory := by
  have hfault : fileFault? (blockedOutput.run.run blockedTree).1
      = some (.fileExists blockedOutput.output.parent) := by decide +kernel
  have hplace : (blockedOutput.run.run blockedTree).2.locate blockedOutput.output.parent
      = .reached ["f"] := by decide +kernel
  have hfile : FileTree.entry? (blockedOutput.run.run blockedTree).2 ["f"]
      = some (.file (.text "")) := by decide +kernel
  have hmade : FileTree.entry? (blockedOutput.run.run blockedTree).2 ["a"]
      = some .directory := by decide +kernel
  rcases hrun : blockedOutput.run.run blockedTree with ⟨result, t'⟩
  rw [hrun] at hfault hplace hfile hmade
  refine ⟨t', ?_, ?_, by decide, hmade⟩
  · dsimp only at hfault
    unfold fileFault? at hfault
    split at hfault
    · cases hfault
      rfl
    · cases hfault
  · rintro ⟨place, hlocate, hentry⟩
    rw [hplace] at hlocate
    cases hlocate
    rw [hfile] at hentry
    cases hentry

end BuildOrder

end SketchCompiler
