/-
Visits of module graphs, step by step.  What a visit does is first
written as an equation on graphs (`outcome_visit`,
`outcome_visitImport`); a visit that succeeds is then taken apart by what
it did (`visit_cases`, `visitImport_cases`), and everything else is
derived from that.

The modules being visited are different entries of the file tree
(`Open`), so there are at most as many as it has entries, and the root
directory.  The bound that `addEntry` starts with is never used up, and
any larger one gives the same graph (`outcome_visit_bound`).
-/
import Mathlib.Data.List.Nodup
import Mathlib.Data.List.Perm.Subperm
import SketchCompiler.ModuleGraph

namespace SketchCompiler.ModuleGraph

open List

variable {v : Path → Visit Unit} {i : Import}

variable {t : FileTree} {extension : String} {g g' : ModuleGraph} {p : Path} {bound : Nat}

-- ==== running visits

/-- What a visit yields, and the graph it leaves. -/
def outcome {α : Type} (v : Visit α) (g : ModuleGraph) : Except ModuleFault α × ModuleGraph :=
  v.run.run g

/-- Goes on from an outcome, unless that is a failure. -/
def andThen {α β : Type} (r : Except ModuleFault α × ModuleGraph)
    (f : α → ModuleGraph → Except ModuleFault β × ModuleGraph) :
    Except ModuleFault β × ModuleGraph :=
  match r with
  | (.ok a, g) => f a g
  | (.error e, g) => (.error e, g)

theorem outcome_bind (v : Visit α) (f : α → Visit β) (g : ModuleGraph) :
    outcome (v >>= f) g = andThen (outcome v g) fun a => outcome (f a) := by
  unfold outcome
  rw [ExceptT.run_bind, StateT.run_bind]
  rcases StateT.run (ExceptT.run v) g with ⟨_ | _, _⟩ <;> rfl

theorem andThen_eq_ok (h : andThen r f = (.ok b, g')) :
    ∃ a g₁, r = (.ok a, g₁) ∧ f a g₁ = (.ok b, g') := by
  obtain ⟨_ | a, g₁⟩ := r
  · cases (Prod.mk.inj h).1
  · exact ⟨a, g₁, rfl, h⟩

/-- The graph with one more finding. -/
def noted (g : ModuleGraph) (issue : GraphIssue) : ModuleGraph :=
  { g with issues := g.issues ++ [issue] }

/-- The graph when a module has been read and its imports follow. -/
def started (g : ModuleGraph) (p : Path) (m : Module) : ModuleGraph :=
  { g with visiting := p :: g.visiting, modules := g.modules ++ [m] }

/-- The graph when the imports of a module have been followed. -/
def finished (g : ModuleGraph) (p : Path) : ModuleGraph :=
  { g with visiting := g.visiting.erase p, order := g.order ++ [p] }

/-- What reading a module and following its imports does. -/
def expanded (t : FileTree) (v : Path → List Import → Visit Unit) (p : Path) (g : ModuleGraph) :
    Except ModuleFault Unit × ModuleGraph :=
  match load t p with
  | .error e => (.error e, { g with visiting := p :: g.visiting })
  | .ok m => andThen (outcome (v p m.imports) (g.started p m)) fun _ g₁ => (.ok (), g₁.finished p)

theorem outcome_visit :
    outcome (visit t extension (bound + 1) p) g =
      if g.order.contains p then (.ok (), g)
      else if g.visiting.contains p then (.ok (), g.noted ⟨.cycleAt p.name, p.text, 1, 1⟩)
      else if !t.exists? p then (.ok (), g.noted ⟨.notFound, p.text, 1, 1⟩)
      else expanded t (visitImports t extension (visit t extension bound)) p g := by
  rw [visit, outcome_bind]
  show outcome (if g.order.contains p then _ else _) g = _
  split
  · rfl
  split
  · rfl
  split
  · rfl
  rw [outcome_bind]
  show outcome (liftM (load t p) >>= _) { g with visiting := p :: g.visiting } = _
  rw [outcome_bind]
  unfold expanded
  cases load t p with
  | error e => rfl
  | ok m =>
    show outcome (modify _ >>= _) { g with visiting := p :: g.visiting } = _
    rw [outcome_bind]
    exact outcome_bind _ _ (g.started p m)

theorem outcome_visitImport :
    outcome (visitImport t extension v p i) g =
      if i.hasNull then (.error .nullInPath, g)
      else match resolveImport t extension p.parent i.path with
      | none => (.ok (), g.noted (issueAt p i (.unresolved i.path)))
      | some target =>
        if g.visiting.contains target then
          (.ok (), g.noted (issueAt p i (.cycleThrough i.path)))
        else outcome (v target) g := by
  unfold visitImport
  split
  · rfl
  cases resolveImport t extension p.parent i.path with
  | none => rfl
  | some target =>
    dsimp only
    rw [outcome_bind]
    show outcome (if g.visiting.contains target then _ else _) g = _
    split <;> rfl

theorem outcome_visitImports_cons :
    outcome (visitImports t extension v p (i :: rest)) g =
      andThen (outcome (visitImport t extension v p i) g) fun _ =>
        outcome (visitImports t extension v p rest) :=
  outcome_bind _ _ g

-- ==== visits that succeed

/-- What a successful visit can have done: the module was finished, or it
is being visited, or it is not there, or it was read, its imports were
followed and it was finished. -/
theorem visit_cases (h : outcome (visit t extension (bound + 1) p) g = (.ok (), g')) :
    (p ∈ g.order ∧ g' = g)
      ∨ (p ∉ g.order ∧ p ∈ g.visiting ∧ g' = g.noted ⟨.cycleAt p.name, p.text, 1, 1⟩)
      ∨ (p ∉ g.order ∧ p ∉ g.visiting ∧ t.exists? p = false
        ∧ g' = g.noted ⟨.notFound, p.text, 1, 1⟩)
      ∨ (p ∉ g.order ∧ p ∉ g.visiting ∧ t.exists? p = true ∧ ∃ m g₁, load t p = .ok m
        ∧ outcome (visitImports t extension (visit t extension bound) p m.imports) (g.started p m)
          = (.ok (), g₁)
        ∧ g' = g₁.finished p) := by
  rw [outcome_visit] at h
  simp only [contains_iff_mem] at h
  split at h
  · rename_i horder
    exact .inl ⟨horder, (Prod.mk.inj h).2.symm⟩
  rename_i horder
  split at h
  · rename_i hvisiting
    exact .inr (.inl ⟨horder, hvisiting, (Prod.mk.inj h).2.symm⟩)
  rename_i hvisiting
  split at h
  · rename_i hexists
    refine .inr (.inr (.inl ⟨horder, hvisiting, ?_, (Prod.mk.inj h).2.symm⟩))
    simpa using hexists
  rename_i hexists
  refine .inr (.inr (.inr ⟨horder, hvisiting, by simpa using hexists, ?_⟩))
  unfold expanded at h
  cases hload : load t p with
  | error e =>
    rw [hload] at h
    cases (Prod.mk.inj h).1
  | ok m =>
    rw [hload] at h
    obtain ⟨_, g₁, hrun, hg'⟩ := andThen_eq_ok h
    exact ⟨m, g₁, rfl, hrun, (Prod.mk.inj hg').2.symm⟩

theorem visitImport_cases (h : outcome (visitImport t extension v p i) g = (.ok (), g')) :
    (resolveImport t extension p.parent i.path = none
        ∧ g' = g.noted (issueAt p i (.unresolved i.path)))
      ∨ ∃ target, resolveImport t extension p.parent i.path = some target
        ∧ (target ∈ g.visiting ∧ g' = g.noted (issueAt p i (.cycleThrough i.path))
          ∨ target ∉ g.visiting ∧ outcome (v target) g = (.ok (), g')) := by
  rw [outcome_visitImport] at h
  split at h
  · cases (Prod.mk.inj h).1
  cases hresolve : resolveImport t extension p.parent i.path with
  | none =>
    rw [hresolve] at h
    exact .inl ⟨rfl, (Prod.mk.inj h).2.symm⟩
  | some target =>
    rw [hresolve] at h
    refine .inr ⟨target, rfl, ?_⟩
    simp only [contains_iff_mem] at h
    split at h
    · rename_i hvisiting
      exact .inl ⟨hvisiting, (Prod.mk.inj h).2.symm⟩
    · rename_i hvisiting
      exact .inr ⟨hvisiting, h⟩

theorem visitImports_cons
    (h : outcome (visitImports t extension v p (i :: rest)) g = (.ok (), g')) :
    ∃ g₁, outcome (visitImport t extension v p i) g = (.ok (), g₁)
      ∧ outcome (visitImports t extension v p rest) g₁ = (.ok (), g') := by
  rw [outcome_visitImports_cons] at h
  obtain ⟨_, g₁, hfirst, hrest⟩ := andThen_eq_ok h
  exact ⟨g₁, hfirst, hrest⟩

theorem visitImports_invariant (I : ModuleGraph → Prop)
    (hnoted : ∀ g issue, I g → I (g.noted issue))
    (hvisit : ∀ g g' target, I g → outcome (v target) g = (.ok (), g') → I g')
    (h : outcome (visitImports t extension v p is) g = (.ok (), g')) (hg : I g) : I g' := by
  induction is generalizing g with
  | nil =>
    cases h
    exact hg
  | cons i rest ih =>
    obtain ⟨g₁, hfirst, hrest⟩ := visitImports_cons h
    refine ih hrest ?_
    rcases visitImport_cases hfirst with ⟨-, rfl⟩ | ⟨target, -, ⟨-, rfl⟩ | ⟨-, hrun⟩⟩
    · exact hnoted _ _ hg
    · exact hnoted _ _ hg
    · exact hvisit _ _ _ hg hrun

theorem visit_visiting (h : outcome (visit t extension bound p) g = (.ok (), g')) :
    g'.visiting = g.visiting := by
  induction bound generalizing p g g' with
  | zero =>
    cases h
    rfl
  | succ bound ih =>
    rcases visit_cases h with ⟨-, rfl⟩ | ⟨-, -, rfl⟩ | ⟨-, -, -, rfl⟩ | ⟨-, -, -, m, g₁, -,
      hrun, rfl⟩
    · rfl
    · rfl
    · rfl
    · have hsame : g₁.visiting = p :: g.visiting :=
        visitImports_invariant (fun g₁ => g₁.visiting = p :: g.visiting) (fun _ _ h => h)
          (fun _ _ _ h hrun => (ih hrun).trans h) hrun rfl
      show g₁.visiting.erase p = g.visiting
      rw [hsame, erase_cons_head]

-- ==== the bound

/-- Modules that can be visited one inside the other: different ones,
each at an absolute path that leads to something. -/
structure Open (t : FileTree) (visiting : List Path) : Prop where
  nodup : visiting.Nodup
  root : ∀ p ∈ visiting, p.root = "/"
  found : ∀ p ∈ visiting, t.exists? p = true

theorem Open.cons {visiting : List Path} (h : Open t visiting) (hp : p ∉ visiting)
    (hroot : p.root = "/") (hfound : t.exists? p = true) : Open t (p :: visiting) :=
  ⟨nodup_cons.mpr ⟨hp, h.nodup⟩, forall_mem_cons.mpr ⟨hroot, h.root⟩,
    forall_mem_cons.mpr ⟨hfound, h.found⟩⟩

theorem names_mem_of_exists (h : t.exists? p = true) : p.names ∈ [] :: t.entries.map (·.1) := by
  unfold FileTree.exists? FileTree.entry? at h
  split at h
  · rename_i hnil
    rw [isEmpty_iff.mp hnil]
    exact mem_cons_self
  · obtain ⟨e, he⟩ := Option.isSome_iff_exists.mp h
    obtain ⟨l₁, l₂, hentries, -⟩ := lookup_eq_some_iff.mp he
    refine mem_cons_of_mem _ (mem_map.mpr ⟨(p.names, e), ?_, rfl⟩)
    rw [hentries]
    exact mem_append_right _ mem_cons_self

theorem Open.length_le {visiting : List Path} (h : Open t visiting) :
    visiting.length ≤ t.entries.length + 1 := by
  have hinj : ∀ p ∈ visiting, ∀ q ∈ visiting, p.names = q.names → p = q := by
    rintro ⟨proot, pnames⟩ hp ⟨qroot, qnames⟩ hq hnames
    cases h.root _ hp
    cases h.root _ hq
    cases hnames
    rfl
  have hnodup : (visiting.map Path.names).Nodup := List.Nodup.map_on hinj h.nodup
  have hsub : visiting.map Path.names ⊆ [] :: t.entries.map (·.1) := by
    intro names hmem
    obtain ⟨p, hp, rfl⟩ := mem_map.mp hmem
    exact names_mem_of_exists (h.found p hp)
  have hlen := (hnodup.subperm hsub).length_le
  simpa using hlen

theorem resolveImport_some (h : resolveImport t extension directory path = some target) :
    target.root = "/" ∧ t.exists? target = true := by
  refine ⟨?_, find?_some h⟩
  have hmem := mem_of_find?_eq_some h
  unfold candidates at hmem
  split at hmem
  · rw [mem_singleton.mp hmem]
    rfl
  · obtain ⟨text, -, rfl⟩ := mem_map.mp hmem
    rfl

theorem outcome_visitImports_congr
    (hsame : ∀ g₁ target, g₁.visiting = g.visiting → target.root = "/" →
      outcome (v target) g₁ = outcome (v' target) g₁)
    (hvisiting : ∀ g₁ g₂ target, outcome (v' target) g₁ = (.ok (), g₂) →
      g₂.visiting = g₁.visiting) :
    outcome (visitImports t extension v p is) g
      = outcome (visitImports t extension v' p is) g := by
  induction is generalizing g with
  | nil => rfl
  | cons i rest ih =>
    have hfirst : outcome (visitImport t extension v p i) g
        = outcome (visitImport t extension v' p i) g := by
      rw [outcome_visitImport, outcome_visitImport]
      cases hresolve : resolveImport t extension p.parent i.path with
      | none => rfl
      | some target =>
        dsimp only
        rw [hsame g target rfl (resolveImport_some hresolve).1]
    rw [outcome_visitImports_cons, outcome_visitImports_cons, hfirst]
    cases hrun : outcome (visitImport t extension v' p i) g with
    | mk result g₁ =>
      cases result with
      | error e => rfl
      | ok _ =>
        have hg₁ : g₁.visiting = g.visiting := by
          rcases visitImport_cases hrun with ⟨-, rfl⟩ | ⟨target, -, ⟨-, rfl⟩ | ⟨-, hvisit⟩⟩
          · rfl
          · rfl
          · exact hvisiting _ _ _ hvisit
        exact ih fun g₂ target hg₂ => hsame g₂ target (hg₂.trans hg₁)

theorem outcome_visit_succ (hopen : Open t g.visiting) (hroot : p.root = "/")
    (hbound : t.entries.length + 2 ≤ g.visiting.length + bound) :
    outcome (visit t extension (bound + 1) p) g = outcome (visit t extension bound p) g := by
  induction bound generalizing p g with
  | zero =>
    have := hopen.length_le
    omega
  | succ bound ih =>
    rw [outcome_visit, outcome_visit]
    refine ite_congr rfl (fun _ => rfl) fun _ => ite_congr rfl (fun _ => rfl) fun hvisiting =>
      ite_congr rfl (fun _ => rfl) fun hfound => ?_
    have hopen' : Open t (p :: g.visiting) :=
      hopen.cons (by simpa using hvisiting) hroot (by simpa using hfound)
    unfold expanded
    cases load t p with
    | error e => rfl
    | ok m =>
      have hsame : ∀ g₁ target, g₁.visiting = p :: g.visiting → target.root = "/" →
          outcome (visit t extension (bound + 1) target) g₁
            = outcome (visit t extension bound target) g₁ := by
        intro g₁ target hg₁ htarget
        refine ih (by rwa [hg₁]) htarget ?_
        rw [hg₁, length_cons]
        omega
      have himports :
          outcome (visitImports t extension (visit t extension (bound + 1)) p m.imports)
          (g.started p m)
          = outcome (visitImports t extension (visit t extension bound) p m.imports)
            (g.started p m) :=
        outcome_visitImports_congr hsame fun _ _ _ => visit_visiting
      dsimp only
      rw [himports]

theorem outcome_visit_bound_of_open (hopen : Open t g.visiting) (hroot : p.root = "/")
    (hbound : t.entries.length + 2 ≤ bound) :
    outcome (visit t extension bound p) g
      = outcome (visit t extension (t.entries.length + 2) p) g := by
  induction hbound with
  | refl => rfl
  | step hle ih =>
    rw [← ih]
    exact outcome_visit_succ hopen hroot (Nat.le_trans hle (Nat.le_add_left _ _))

theorem outcome_visit_bound (hroot : p.root = "/") (hbound : t.entries.length + 2 ≤ bound) :
    outcome (visit t extension bound p) {}
      = outcome (visit t extension (t.entries.length + 2) p) {} :=
  outcome_visit_bound_of_open ⟨nodup_nil, nofun, nofun⟩ hroot hbound

end SketchCompiler.ModuleGraph
