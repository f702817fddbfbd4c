/-
The order of a module graph.  When an entry is added to the empty graph,
the modules finished are those that it reaches, each one once, and a
module comes behind those it imports; an import for which that fails is
reported, and so is one that means nothing.

# The invariant

`Sound` holds whenever a visit starts or ends.  The modules being visited
form a path of imports from the entry to the module visited last
(`chain`), which is why an import of one of them closes a cycle.  For a
module that is finished every import is settled (`Settled`): it means a
module finished earlier, or it was reported.
-/
import Mathlib.Logic.Relation
import SketchCompiler.Proofs.GraphVisit
import SketchCompiler.Proofs.TreeGrowth

namespace SketchCompiler

open List Relation

variable {visiting : List Path} {m : Module} {i : Import}

/-- A finding about a circular import. -/
def GraphFinding.isCircular : GraphFinding → Bool
  | cycleAt _ | cycleThrough _ => true
  | notFound | unresolved _ => false

namespace ModuleGraph

variable {t : FileTree} {extension : String} {g g' : ModuleGraph} {p root : Path} {bound : Nat}

-- ==== the imports

/-- The module at one path imports the one at another. -/
def ImportsTo (t : FileTree) (extension : String) (p q : Path) : Prop :=
  ∃ m, load t p = .ok m ∧ ∃ i ∈ m.imports, resolveImport t extension p.parent i.path = some q

/-- The entry reaches a module that imports itself, directly or through
others. -/
def HasCycle (t : FileTree) (extension : String) (root : Path) : Prop :=
  ∃ p, ReflTransGen (ImportsTo t extension) root p ∧ TransGen (ImportsTo t extension) p p

theorem load_path (h : load t p = .ok m) : m.path = p := by
  unfold load at h
  cases hread : t.read p with
  | error e =>
    rw [hread] at h
    cases h
  | ok text =>
    simp only [hread, Except.mapError, bind, Except.bind] at h
    split at h
    · cases h
    · cases h
      rfl

/-- An import is settled: it means nothing and was reported, or it means
one of the modules that come before, or one that is known and it was
reported. -/
inductive Settled (t : FileTree) (extension : String) (g : ModuleGraph) (before : List Path)
    (p : Path) (i : Import) : Prop where
  | unresolved (hresolve : resolveImport t extension p.parent i.path = none)
    (hissue : issueAt p i (.unresolved i.path) ∈ g.issues)
  | before {target : Path} (hresolve : resolveImport t extension p.parent i.path = some target)
    (hbefore : target ∈ before)
  | circular {target : Path} (hresolve : resolveImport t extension p.parent i.path = some target)
    (hknown : target ∈ g.order ++ g.visiting)
    (hissue : issueAt p i (.cycleThrough i.path) ∈ g.issues)

theorem Settled.mono {before before' : List Path} (h : Settled t extension g before p i)
    (hbefore : before ⊆ before') (hknown : g.order ++ g.visiting ⊆ g'.order ++ g'.visiting)
    (hissues : g.issues ⊆ g'.issues) : Settled t extension g' before' p i := by
  cases h with
  | unresolved hresolve hissue => exact .unresolved hresolve (hissues hissue)
  | before hresolve hmem => exact .before hresolve (hbefore hmem)
  | circular hresolve hmem hissue => exact .circular hresolve (hknown hmem) (hissues hissue)

-- ==== the invariant

/-- What holds of a graph whenever a visit starts or ends. -/
structure Sound (t : FileTree) (extension : String) (root : Path) (g : ModuleGraph) : Prop where
  nodup : (g.order ++ g.visiting).Nodup
  keys : (g.modules.map Module.path).Perm (g.order ++ g.visiting)
  loaded : ∀ m ∈ g.modules, load t m.path = .ok m
  absolute : ∀ p ∈ g.visiting, p.root = "/"
  found : ∀ p ∈ g.order ++ g.visiting, t.exists? p = true
  reached : ∀ p ∈ g.order ++ g.visiting, ReflTransGen (ImportsTo t extension) root p
  chain : g.visiting.IsChain fun p q => ImportsTo t extension q p
  settled : ∀ m ∈ g.modules, m.path ∈ g.order → ∃ before, before ++ [m.path] <+: g.order
    ∧ ∀ i ∈ m.imports, Settled t extension g before m.path i
  cyclic : ∀ issue ∈ g.issues, issue.finding.isCircular = true → HasCycle t extension root

theorem Sound.empty : Sound t extension root {} where
  nodup := nodup_nil
  keys := .nil
  loaded := nofun
  absolute := nofun
  found := nofun
  reached := nofun
  chain := .nil
  settled := nofun
  cyclic := nofun

theorem Sound.noted {issue : GraphIssue} (h : Sound t extension root g)
    (hcycle : issue.finding.isCircular = true → HasCycle t extension root) :
    Sound t extension root (g.noted issue) where
  nodup := h.nodup
  keys := h.keys
  loaded := h.loaded
  absolute := h.absolute
  found := h.found
  reached := h.reached
  chain := h.chain
  settled m hm hpath := by
    obtain ⟨before, hfront, hall⟩ := h.settled m hm hpath
    refine ⟨before, hfront, fun i hi => (hall i hi).mono (fun _ h => h) (fun _ h => h) ?_⟩
    exact subset_append_left _ _
  cyclic issue' hmem hcircular := by
    rcases mem_append.mp hmem with hmem | hmem
    · exact h.cyclic issue' hmem hcircular
    · rw [mem_singleton.mp hmem] at hcircular
      exact hcycle hcircular

theorem Sound.started (h : Sound t extension root g) (horder : p ∉ g.order)
    (hvisiting : p ∉ g.visiting) (habsolute : p.root = "/") (hfound : t.exists? p = true)
    (hreached : ReflTransGen (ImportsTo t extension) root p)
    (hchain : (p :: g.visiting).IsChain fun p q => ImportsTo t extension q p)
    (hload : load t p = .ok m) : Sound t extension root (g.started p m) := by
  have hpath := load_path hload
  have hperm : (g.order ++ p :: g.visiting).Perm (p :: (g.order ++ g.visiting)) := perm_middle
  constructor
  case nodup =>
    refine hperm.nodup_iff.mpr (nodup_cons.mpr ⟨?_, h.nodup⟩)
    simp [horder, hvisiting]
  case keys =>
    refine .trans ?_ hperm.symm
    show ((g.modules ++ [m]).map Module.path).Perm _
    rw [map_append, map_singleton, hpath]
    exact (perm_append_singleton _ _).trans (h.keys.cons p)
  case loaded =>
    intro m' hm'
    rcases mem_append.mp hm' with hm' | hm'
    · exact h.loaded m' hm'
    · rw [mem_singleton.mp hm', hpath]
      exact hload
  case absolute => exact forall_mem_cons.mpr ⟨habsolute, h.absolute⟩
  case found =>
    intro q hq
    rcases mem_cons.mp (hperm.mem_iff.mp hq) with rfl | hq
    · exact hfound
    · exact h.found q hq
  case reached =>
    intro q hq
    rcases mem_cons.mp (hperm.mem_iff.mp hq) with rfl | hq
    · exact hreached
    · exact h.reached q hq
  case chain => exact hchain
  case settled =>
    intro m' hm' hm'path
    rcases mem_append.mp hm' with hm' | hm'
    · obtain ⟨before, hfront, hall⟩ := h.settled m' hm' hm'path
      refine ⟨before, hfront, fun i hi => (hall i hi).mono (fun _ h => h) (fun q hq => ?_)
        (fun _ h => h)⟩
      exact hperm.mem_iff.mpr (mem_cons_of_mem _ hq)
    · rw [mem_singleton.mp hm', hpath] at hm'path
      exact absurd hm'path horder
  case cyclic => exact h.cyclic

theorem Sound.finished {visiting : List Path} (h : Sound t extension root g)
    (hvisiting : g.visiting = p :: visiting) (hload : load t p = .ok m)
    (hsettled : ∀ i ∈ m.imports, Settled t extension g g.order p i) :
    Sound t extension root (g.finished p) := by
  have htail : (g.finished p).visiting = visiting := by
    show g.visiting.erase p = visiting
    rw [hvisiting, erase_cons_head]
  have hknown : (g.finished p).order ++ (g.finished p).visiting = g.order ++ g.visiting := by
    rw [htail, hvisiting]
    exact append_assoc g.order [p] visiting
  have hmono : ∀ {before q i}, Settled t extension g before q i →
      Settled t extension (g.finished p) before q i := by
    intro before q i hi
    refine hi.mono (fun _ h => h) ?_ (fun _ h => h)
    rw [hknown]
    exact fun _ h => h
  constructor
  case nodup => rw [hknown]; exact h.nodup
  case keys => rw [hknown]; exact h.keys
  case loaded => exact h.loaded
  case absolute =>
    intro q hq
    rw [htail] at hq
    exact h.absolute q (hvisiting ▸ mem_cons_of_mem p hq)
  case found => rw [hknown]; exact h.found
  case reached => rw [hknown]; exact h.reached
  case chain =>
    have hchain := h.chain
    rw [hvisiting] at hchain
    rw [htail]
    exact hchain.of_cons
  case settled =>
    intro m' hm' hpath
    rcases mem_append.mp hpath with hpath | hpath
    · obtain ⟨before, hfront, hall⟩ := h.settled m' hm' hpath
      exact ⟨before, hfront.trans (prefix_append _ _), fun i hi => hmono (hall i hi)⟩
    · have hpath := mem_singleton.mp hpath
      have hm'load := h.loaded m' hm'
      rw [hpath] at hm'load ⊢
      cases hm'load.symm.trans hload
      exact ⟨g.order, prefix_refl _, fun i hi => hmono (hsettled i hi)⟩
  case cyclic => exact h.cyclic

-- ==== the visits

theorem reaches_of_chain (h : (p :: visiting).IsChain fun p q => ImportsTo t extension q p) :
    ∀ q ∈ p :: visiting, ReflTransGen (ImportsTo t extension) q p := by
  induction visiting generalizing p with
  | nil =>
    intro q hq
    rw [mem_singleton.mp hq]
  | cons r visiting ih =>
    intro q hq
    obtain ⟨hedge, hchain⟩ := isChain_cons_cons.mp h
    rcases mem_cons.mp hq with rfl | hq
    · exact .refl
    · exact (ih hchain q hq).tail hedge

theorem Sound.hasCycle (h : Sound t extension root g) (hvisiting : g.visiting = p :: visiting)
    (hedge : ImportsTo t extension p target) (htarget : target ∈ g.visiting) :
    HasCycle t extension root := by
  refine ⟨target, h.reached target (mem_append_right _ htarget), ?_⟩
  have hchain := h.chain
  rw [hvisiting] at hchain htarget
  exact TransGen.tail' (reaches_of_chain hchain target htarget) hedge

/-- A graph that a visit leaves: nothing that was known before is lost. -/
structure Extends (g g' : ModuleGraph) : Prop where
  order : g.order <+: g'.order
  visiting : g'.visiting = g.visiting
  issues : g.issues <+: g'.issues

theorem Extends.noted : Extends g (g.noted issue) := ⟨prefix_refl _, rfl, prefix_append _ _⟩

theorem Extends.trans (h : Extends g₁ g₂) (h' : Extends g₂ g₃) : Extends g₁ g₃ :=
  ⟨h.order.trans h'.order, h'.visiting.trans h.visiting, h.issues.trans h'.issues⟩

theorem Settled.extend (h : Settled t extension g g.order p i) (hg : Extends g g') :
    Settled t extension g' g'.order p i := by
  refine h.mono hg.order.subset ?_ hg.issues.subset
  rw [hg.visiting]
  exact append_subset.mpr
    ⟨subset_append_of_subset_left _ hg.order.subset, subset_append_right _ _⟩

/-- What a successful visit of a module does to a sound graph, when that
module may come next: the graph stays sound and only grows, and the
module is finished if it is there. -/
def VisitsSoundly (t : FileTree) (extension : String) (root : Path) (v : Path → Visit Unit)
    (visiting : List Path) : Prop :=
  ∀ p g g', outcome (v p) g = (.ok (), g') → Sound t extension root g → g.visiting = visiting →
    p ∉ visiting → p.root = "/" → ReflTransGen (ImportsTo t extension) root p →
    ((p :: visiting).IsChain fun p q => ImportsTo t extension q p) →
    Sound t extension root g' ∧ Extends g g' ∧ (t.exists? p = true → p ∈ g'.order)

theorem visitImport_sound (hv : VisitsSoundly t extension root v (p :: visiting))
    (hload : load t p = .ok m) (hi : i ∈ m.imports) (hg : Sound t extension root g)
    (hvisiting : g.visiting = p :: visiting)
    (h : outcome (visitImport t extension v p i) g = (.ok (), g')) :
    Sound t extension root g' ∧ Extends g g' ∧ Settled t extension g' g'.order p i := by
  rcases visitImport_cases h with
    ⟨hresolve, rfl⟩ | ⟨target, hresolve, ⟨hmem, rfl⟩ | ⟨hmem, hrun⟩⟩
  · refine ⟨hg.noted nofun, .noted, .unresolved hresolve ?_⟩
    exact mem_append_right _ (mem_singleton.mpr rfl)
  · have hedge : ImportsTo t extension p target := ⟨m, hload, i, hi, hresolve⟩
    refine ⟨hg.noted fun _ => hg.hasCycle hvisiting hedge hmem, .noted, ?_⟩
    refine .circular hresolve (mem_append_right _ hmem) ?_
    exact mem_append_right _ (mem_singleton.mpr rfl)
  · have hedge : ImportsTo t extension p target := ⟨m, hload, i, hi, hresolve⟩
    obtain ⟨hroot, hfound⟩ := resolveImport_some hresolve
    have hp : p ∈ g.order ++ g.visiting := by
      rw [hvisiting]
      exact mem_append_right _ mem_cons_self
    have hchain := hg.chain
    rw [hvisiting] at hchain hmem
    obtain ⟨hsound, hextends, horder⟩ := hv target g g' hrun hg hvisiting hmem hroot
      ((hg.reached p hp).tail hedge) (isChain_cons_cons.mpr ⟨hedge, hchain⟩)
    exact ⟨hsound, hextends, .before hresolve (horder hfound)⟩

theorem visitImports_sound (hv : VisitsSoundly t extension root v (p :: visiting))
    (hload : load t p = .ok m) (his : is ⊆ m.imports) (hg : Sound t extension root g)
    (hvisiting : g.visiting = p :: visiting)
    (h : outcome (visitImports t extension v p is) g = (.ok (), g')) :
    Sound t extension root g' ∧ Extends g g' ∧ ∀ i ∈ is, Settled t extension g' g'.order p i := by
  induction is generalizing g with
  | nil =>
    cases h
    exact ⟨hg, ⟨prefix_refl _, rfl, prefix_refl _⟩, nofun⟩
  | cons i rest ih =>
    obtain ⟨hi, hrest⟩ := cons_subset.mp his
    obtain ⟨g₁, hfirst, hothers⟩ := visitImports_cons h
    obtain ⟨hg₁, hextends₁, hsettled₁⟩ := visitImport_sound hv hload hi hg hvisiting hfirst
    obtain ⟨hg', hextends', hsettled'⟩ := ih hrest hg₁ (hextends₁.visiting.trans hvisiting) hothers
    exact ⟨hg', hextends₁.trans hextends',
      forall_mem_cons.mpr ⟨hsettled₁.extend hextends', hsettled'⟩⟩

theorem visit_sound (hbound : t.entries.length + 2 ≤ visiting.length + bound) :
    VisitsSoundly t extension root (visit t extension bound) visiting := by
  induction bound generalizing visiting with
  | zero =>
    rintro p g g' - hg rfl - - - -
    have hopen : Open t g.visiting := ⟨(nodup_append.mp hg.nodup).2.1, hg.absolute,
      fun q hq => hg.found q (mem_append_right _ hq)⟩
    have := hopen.length_le
    omega
  | succ bound ih =>
    rintro p g g' h hg rfl hp hroot hreached hchain
    rcases visit_cases h with
      ⟨horder, rfl⟩ | ⟨-, hmem, -⟩ | ⟨-, -, hfound, rfl⟩ | ⟨horder, -, hfound, m, g₁, hload, hrun,
        rfl⟩
    · exact ⟨hg, ⟨prefix_refl _, rfl, prefix_refl _⟩, fun _ => horder⟩
    · exact absurd hmem hp
    · refine ⟨hg.noted nofun, .noted, fun h => ?_⟩
      rw [hfound] at h
      cases h
    · have hstarted := hg.started horder hp hroot hfound hreached hchain hload
      obtain ⟨hg₁, hextends, hsettled⟩ := visitImports_sound
        (ih (by rw [length_cons]; omega)) hload (List.Subset.refl _) hstarted rfl hrun
      refine ⟨hg₁.finished hextends.visiting hload hsettled, ?_, fun _ => ?_⟩
      · refine ⟨hextends.order.trans (prefix_append _ _), ?_, hextends.issues⟩
        show g₁.visiting.erase p = g.visiting
        rw [hextends.visiting]
        exact erase_cons_head ..
      · exact mem_append_right _ (mem_singleton.mpr rfl)

-- ==== the entries

theorem dots_notMem_collapse (h : ".." ∉ known) : ".." ∉ Path.collapse known names := by
  induction names generalizing known with
  | nil => exact h
  | cons name rest ih =>
    rw [Path.collapse]
    split
    · exact ih fun hmem => h (dropLast_subset _ hmem)
    · rename_i hname
      refine ih fun hmem => ?_
      rcases mem_append.mp hmem with hmem | hmem
      · exact h hmem
      · rw [← mem_singleton.mp hmem] at hname
        exact hname rfl

theorem exists_of_load {directory : Path} (h : load t (directory.resolve p) = .ok m) :
    t.exists? (directory.resolve p) = true := by
  unfold load at h
  cases hread : t.read (directory.resolve p) with
  | error e =>
    rw [hread] at h
    cases h
  | ok text =>
    unfold FileTree.read FileTree.locate at hread
    split at hread
    · cases hread
    · cases hread
    · rename_i place hfollow
      have hplace : place = (directory.resolve p).names :=
        FileTree.follow_reached (dots_notMem_collapse not_mem_nil) hfollow
      rw [hplace] at hread
      unfold FileTree.exists?
      split at hread
      · cases hread
      all_goals rename_i hentry; rw [hentry]; rfl

theorem idxOf_lt_of_mem_front {order before : List Path} {q : Path} (hnodup : order.Nodup)
    (hfront : before ++ [p] <+: order) (hq : q ∈ before) : order.idxOf q < order.idxOf p := by
  obtain ⟨rest, rfl⟩ := hfront
  rw [append_assoc] at hnodup ⊢
  have hp : p ∉ before := fun hmem =>
    (nodup_append.mp hnodup).2.2 p hmem p mem_cons_self rfl
  rw [idxOf_append_of_mem hq, idxOf_append_of_notMem hp]
  have hlt : before.idxOf q < before.length := idxOf_lt_length_iff.mpr hq
  omega

theorem addEntry_sound (h : outcome (addEntry t extension entry) {} = (.ok root, g)) :
    root = t.home.resolve entry
      ∧ outcome (visit t extension (t.entries.length + 2) root) {} = (.ok (), g)
      ∧ Sound t extension root g ∧ g.visiting = [] ∧ (t.exists? root = true → root ∈ g.order)
      ∧ ∀ m, load t root = .ok m → root ∈ g.order := by
  have hadd : outcome (addEntry t extension entry) {}
      = andThen (outcome (visit t extension (t.entries.length + 2) (t.home.resolve entry)) {})
        fun _ => outcome (pure (t.home.resolve entry)) := outcome_bind _ _ _
  rw [hadd] at h
  obtain ⟨_, g₁, hvisit, hpure⟩ := andThen_eq_ok h
  cases hpure
  obtain ⟨hsound, hextends, horder⟩ := visit_sound (by simp) _ _ _ hvisit Sound.empty rfl
    not_mem_nil rfl .refl (.singleton _)
  exact ⟨rfl, hvisit, hsound, hextends.visiting, horder, fun m hload =>
    horder (exists_of_load hload)⟩

theorem Sound.import_settled (h : Sound t extension root g) (hvisiting : g.visiting = [])
    (hm : m ∈ g.modules) (hi : i ∈ m.imports) :
    ∃ before, before ++ [m.path] <+: g.order ∧ Settled t extension g before m.path i := by
  have hkey : m.path ∈ g.order := by
    have hmem := h.keys.mem_iff.mp (mem_map_of_mem hm)
    rwa [hvisiting, append_nil] at hmem
  obtain ⟨before, hfront, hall⟩ := h.settled m hm hkey
  exact ⟨before, hfront, hall i hi⟩

theorem Sound.importsTo_cases (h : Sound t extension root g) (hvisiting : g.visiting = [])
    (hp : p ∈ g.order) (hedge : ImportsTo t extension p q) :
    q ∈ g.order ∧ (g.order.idxOf q < g.order.idxOf p
      ∨ ∃ issue ∈ g.issues, issue.finding.isCircular = true) := by
  have hnodup : g.order.Nodup := by
    have := h.nodup
    rwa [hvisiting, append_nil] at this
  obtain ⟨m, hload, i, hi, hresolve⟩ := hedge
  obtain ⟨m', hm', rfl⟩ := mem_map.mp (h.keys.mem_iff.mpr (mem_append_left _ hp))
  cases (h.loaded m' hm').symm.trans hload
  obtain ⟨before, hfront, hsettled⟩ := h.import_settled hvisiting hm' hi
  cases hsettled with
  | unresolved hnone =>
    rw [hresolve] at hnone
    cases hnone
  | before hsome hmem =>
    cases hresolve.symm.trans hsome
    exact ⟨hfront.subset (mem_append_left _ hmem), .inl (idxOf_lt_of_mem_front hnodup hfront hmem)⟩
  | circular hsome hknown hissue =>
    cases hresolve.symm.trans hsome
    rw [hvisiting, append_nil] at hknown
    exact ⟨hknown, .inr ⟨_, hissue, rfl⟩⟩

theorem Sound.reaches_mem (h : Sound t extension root g) (hvisiting : g.visiting = [])
    (hroot : root ∈ g.order) (hreached : ReflTransGen (ImportsTo t extension) root p) :
    p ∈ g.order := by
  induction hreached with
  | refl => exact hroot
  | tail _ hedge ih => exact (h.importsTo_cases hvisiting ih hedge).1

/-- The modules of a graph are in dependency order.  A successful addition
of an entry to the empty graph is never cut short by its bound; each
module is finished once, and those finished are the ones read and the ones
that are there and reached from the entry; and every import of a module
means one finished before it or was reported where it stands. -/
theorem addEntry_order {entry : Path}
    (h : outcome (addEntry t extension entry) {} = (.ok root, g)) :
    root = t.home.resolve entry
      ∧ (∀ bound, t.entries.length + 2 ≤ bound →
        outcome (visit t extension bound root) {} = (.ok (), g))
      ∧ g.order.Nodup
      ∧ (g.modules.map Module.path).Perm g.order
      ∧ (∀ p, p ∈ g.order ↔ t.exists? p = true ∧ ReflTransGen (ImportsTo t extension) root p)
      ∧ ∀ m ∈ g.modules, load t m.path = .ok m ∧ ∀ i ∈ m.imports,
        (∀ target, resolveImport t extension m.path.parent i.path = some target →
          g.order.idxOf target < g.order.idxOf m.path
            ∨ issueAt m.path i (.cycleThrough i.path) ∈ g.issues)
        ∧ (resolveImport t extension m.path.parent i.path = none →
          issueAt m.path i (.unresolved i.path) ∈ g.issues) := by
  obtain ⟨hroot, hvisit, hsound, hvisiting, horder, hreadable⟩ := addEntry_sound h
  have hknown : g.order ++ g.visiting = g.order := by rw [hvisiting, List.append_nil]
  have hnodup : g.order.Nodup := hknown ▸ hsound.nodup
  refine ⟨hroot, fun bound hbound => ?_, hnodup, hknown ▸ hsound.keys, fun p => ⟨fun hp => ?_, ?_⟩,
    fun m hm => ⟨hsound.loaded m hm, fun i hi => ?_⟩⟩
  · rw [outcome_visit_bound (by rw [hroot]; rfl) hbound]
    exact hvisit
  · exact ⟨hsound.found p (hknown.symm ▸ hp), hsound.reached p (hknown.symm ▸ hp)⟩
  · rintro ⟨hfound, hreached⟩
    -- the entry is there: either it is the module itself, or it could be read
    have hentry : root ∈ g.order := by
      rcases hreached.cases_head with rfl | ⟨q, ⟨m, hload, -⟩, -⟩
      · exact horder hfound
      · exact hreadable m hload
    exact hsound.reaches_mem hvisiting hentry hreached
  · obtain ⟨before, hfront, hsettled⟩ := hsound.import_settled hvisiting hm hi
    cases hsettled with
    | unresolved hnone hissue =>
      refine ⟨fun target hsome => ?_, fun _ => hissue⟩
      rw [hnone] at hsome
      cases hsome
    | before hsome hmem =>
      refine ⟨fun target htarget => .inl ?_, fun hnone => ?_⟩
      · cases htarget.symm.trans hsome
        exact idxOf_lt_of_mem_front hnodup hfront hmem
      · rw [hsome] at hnone
        cases hnone
    | circular hsome _ hissue =>
      refine ⟨fun _ _ => .inr hissue, fun hnone => ?_⟩
      rw [hsome] at hnone
      cases hnone

theorem exists_outcome_ok (h : (outcome v g).1.toBool = true) :
    ∃ a g', outcome v g = (.ok a, g') := by
  cases hrun : outcome v g with
  | mk result g' =>
    cases result with
    | error e =>
      rw [hrun] at h
      cases h
    | ok a => exact ⟨a, g', rfl⟩

/-- Two files, the first of which imports the second. -/
def pairTree : FileTree :=
  { home := ⟨"/", []⟩
    entries := [(["a.nova"], .file (.text "import \"b\";")),
                (["b.nova"], .file (.text "fn f() -> void \x7b \x7d"))] }

/-- The modules of two files are those reached from the first. -/
theorem addEntry_order_pair :
    ∃ root g, outcome (addEntry pairTree defaultExtension (.ofString "a.nova")) {} = (.ok root, g)
      ∧ g.order.Nodup ∧ ∀ p, p ∈ g.order ↔ pairTree.exists? p = true
        ∧ ReflTransGen (ImportsTo pairTree defaultExtension) root p := by
  obtain ⟨root, g, hrun⟩ := exists_outcome_ok (g := {})
    (v := addEntry pairTree defaultExtension (.ofString "a.nova")) (by decide +kernel)
  obtain ⟨-, -, hnodup, -, hmem, -⟩ := addEntry_order hrun
  exact ⟨root, g, hrun, hnodup, hmem⟩

-- ==== the cycles

theorem circular_message (finding : GraphFinding) :
    "Circular import".toList <+: finding.message.toList ↔ finding.isCircular = true := by
  cases finding with
  | notFound => exact iff_of_false (by decide) nofun
  | unresolved path =>
    refine iff_of_false (fun hfront => ?_) nofun
    change _ <+: ("Unable to resolve import '" ++ path ++ "'").toList at hfront
    rw [String.toList_append, String.toList_append, append_assoc] at hfront
    have hhead := hfront.head (by decide)
    rw [head_append_of_ne_nil (by decide)] at hhead
    exact absurd hhead (by decide)
  | cycleAt name =>
    refine iff_of_true ?_ rfl
    show _ <+: ("Circular import detected at '" ++ name ++ "'").toList
    rw [String.toList_append, String.toList_append, append_assoc]
    exact List.IsPrefix.trans (by decide) (prefix_append _ _)
  | cycleThrough path =>
    refine iff_of_true ?_ rfl
    show _ <+: ("Circular import detected while importing '" ++ path ++ "'").toList
    rw [String.toList_append, String.toList_append, append_assoc]
    exact List.IsPrefix.trans (by decide) (prefix_append _ _)

/-- A circular import is reported exactly if the entry reaches a cycle. -/
theorem addEntry_circular_iff {entry : Path}
    (h : outcome (addEntry t extension entry) {} = (.ok root, g)) :
    (∃ issue ∈ g.issues, "Circular import".toList <+: issue.finding.message.toList)
      ↔ ∃ p, ReflTransGen (ImportsTo t extension) root p
        ∧ TransGen (ImportsTo t extension) p p := by
  obtain ⟨-, -, hsound, hvisiting, -, hreadable⟩ := addEntry_sound h
  constructor
  · rintro ⟨issue, hmem, hmessage⟩
    exact hsound.cyclic issue hmem ((circular_message issue.finding).mp hmessage)
  · rintro ⟨p, hreached, hcycle⟩
    have hentry : root ∈ g.order := by
      rcases hreached.cases_head with rfl | ⟨q, ⟨m, hload, -⟩, -⟩
      · obtain ⟨q, ⟨m, hload, -⟩, -⟩ := TransGen.head'_iff.mp hcycle
        exact hreadable m hload
      · exact hreadable m hload
    -- along a path of imports the index falls unless a cycle was reported,
    -- and a cycle leads back to where it started
    have hfalls : ∀ q, TransGen (ImportsTo t extension) p q → q ∈ g.order
        ∧ (g.order.idxOf q < g.order.idxOf p
          ∨ ∃ issue ∈ g.issues, issue.finding.isCircular = true) := by
      intro q hpath
      induction hpath with
      | single hedge =>
        exact hsound.importsTo_cases hvisiting (hsound.reaches_mem hvisiting hentry hreached) hedge
      | tail _ hedge ih =>
        obtain ⟨hmem, hlt | hissue⟩ := hsound.importsTo_cases hvisiting ih.1 hedge
        · exact ⟨hmem, ih.2.imp_left (Nat.lt_trans hlt)⟩
        · exact ⟨hmem, .inr hissue⟩
    rcases (hfalls p hcycle).2 with hlt | ⟨issue, hmem, hcircular⟩
    · exact absurd hlt (Nat.lt_irrefl _)
    · exact ⟨issue, hmem, (circular_message issue.finding).mpr hcircular⟩

/-- Two files that import each other. -/
def loopTree : FileTree :=
  { home := ⟨"/", []⟩
    entries := [(["a.nova"], .file (.text "import \"b\";")),
                (["b.nova"], .file (.text "import \"a\";"))] }

/-- The cycle of two files that import each other is reported. -/
theorem addEntry_circular_loop :
    ∃ root g, outcome (addEntry loopTree defaultExtension (.ofString "a.nova")) {} = (.ok root, g)
      ∧ ∃ p, ReflTransGen (ImportsTo loopTree defaultExtension) root p
        ∧ TransGen (ImportsTo loopTree defaultExtension) p p := by
  obtain ⟨root, g, hrun⟩ := exists_outcome_ok (g := {})
    (v := addEntry loopTree defaultExtension (.ofString "a.nova")) (by decide +kernel)
  have hissue :
      ∃ issue ∈ (outcome (addEntry loopTree defaultExtension (.ofString "a.nova")) {}).2.issues,
      "Circular import".toList <+: issue.finding.message.toList := by decide +kernel
  rw [hrun] at hissue
  exact ⟨root, g, hrun, (addEntry_circular_iff hrun).mp hissue⟩

end ModuleGraph

end SketchCompiler
