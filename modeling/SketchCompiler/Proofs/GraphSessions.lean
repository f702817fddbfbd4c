/-
Sessions on one module graph: entries are added one after the other, and
some additions fail.  A module that cannot be read, or an import of a path
that no file can have, ends the addition at once, and the modules on the
way to it stay marked as being visited.

`Within` holds in the course of an addition.  The modules marked are
those that were marked before, and a path of imports that starts at the
entry.  An addition that succeeds takes its path back; one that fails
leaves it, with the module that it failed at at its end.

A circular import is reported when an import leads to a marked module.
The module may be on the path of the addition itself, and then there is a
cycle; or it was left by a failure, and then there need not be one
(`addEntry_behind_failure`).
-/
import SketchCompiler.Proofs.ImportOrder

namespace SketchCompiler.ModuleGraph

open List Relation

variable {path : List Path}

variable {t : FileTree} {extension : String} {g g₀ g' : ModuleGraph} {p root : Path} {bound : Nat}

-- ==== the sessions

/-- The graph when entries have been added one after the other, each to
what the one before it left, be it a failure or not. -/
def addAll (t : FileTree) (extension : String) (entries : List Path) : ModuleGraph :=
  entries.foldl (fun g entry => (outcome (addEntry t extension entry) g).2) {}

theorem addAll_concat (entries : List Path) (entry : Path) :
    addAll t extension (entries ++ [entry])
      = (outcome (addEntry t extension entry) (addAll t extension entries)).2 :=
  foldl_concat ..

-- ==== within an addition

/-- Imports lead from a module to one that imports itself in the end, or
to one that is marked in the graph. -/
def LeadsToMark (t : FileTree) (extension : String) (g : ModuleGraph) (root : Path) : Prop :=
  HasCycle t extension root ∨ ∃ p ∈ g.visiting, ReflTransGen (ImportsTo t extension) root p

/-- What holds of a graph in the course of adding an entry: beyond what
was marked at the start, a path of imports from the entry is; and a
circular import was reported only if imports lead to a mark. -/
structure Within (t : FileTree) (extension : String) (root : Path) (g₀ : ModuleGraph)
    (path : List Path) (g : ModuleGraph) : Prop where
  visiting : g.visiting = path ++ g₀.visiting
  opened : Open t g.visiting
  chain : path.IsChain fun p q => ImportsTo t extension q p
  reached : ∀ p ∈ path, ReflTransGen (ImportsTo t extension) root p
  added : ∃ issues, g.issues = g₀.issues ++ issues
    ∧ ∀ issue ∈ issues, issue.finding.isCircular = true → LeadsToMark t extension g₀ root

theorem Within.start (hopen : Open t g₀.visiting) : Within t extension root g₀ [] g₀ :=
  ⟨rfl, hopen, .nil, nofun, [], (append_nil _).symm, nofun⟩

theorem Within.noted (h : Within t extension root g₀ path g)
    (hissue : issue.finding.isCircular = true → LeadsToMark t extension g₀ root) :
    Within t extension root g₀ path (g.noted issue) := by
  refine ⟨h.visiting, h.opened, h.chain, h.reached, ?_⟩
  obtain ⟨issues, hissues, hall⟩ := h.added
  refine ⟨issues ++ [issue], ?_, forall_mem_append.mpr ⟨hall, forall_mem_singleton.mpr hissue⟩⟩
  show g.issues ++ [issue] = _
  rw [hissues, append_assoc]

/-- The path grows by a module that may come next. -/
theorem Within.mark (modules : List Module) (h : Within t extension root g₀ path g)
    (hp : p ∉ g.visiting) (habsolute : p.root = "/") (hfound : t.exists? p = true)
    (hreached : ReflTransGen (ImportsTo t extension) root p)
    (hchain : (p :: path).IsChain fun p q => ImportsTo t extension q p) :
    Within t extension root g₀ (p :: path) { g with visiting := p :: g.visiting, modules } where
  visiting := congrArg (p :: ·) h.visiting
  opened := h.opened.cons hp habsolute hfound
  chain := hchain
  reached := forall_mem_cons.mpr ⟨hreached, h.reached⟩
  added := h.added

theorem Within.finished (h : Within t extension root g₀ (p :: path) g) :
    Within t extension root g₀ path (g.finished p) := by
  have htail : (g.finished p).visiting = path ++ g₀.visiting := by
    show g.visiting.erase p = _
    rw [h.visiting]
    exact erase_cons_head ..
  have hopen := h.opened
  rw [h.visiting] at hopen
  refine ⟨htail, ?_, h.chain.of_cons, (forall_mem_cons.mp h.reached).2, h.added⟩
  rw [htail]
  exact ⟨(nodup_cons.mp hopen.nodup).2, (forall_mem_cons.mp hopen.root).2,
    (forall_mem_cons.mp hopen.found).2⟩

theorem Within.leadsToMark (h : Within t extension root g₀ (p :: path) g)
    (hedge : ImportsTo t extension p target) (htarget : target ∈ g.visiting) :
    LeadsToMark t extension g₀ root := by
  rw [h.visiting] at htarget
  rcases mem_append.mp htarget with htarget | htarget
  · exact .inl ⟨target, h.reached target htarget,
      TransGen.tail' (reaches_of_chain h.chain target htarget) hedge⟩
  · exact .inr ⟨target, htarget, (h.reached p mem_cons_self).tail hedge⟩

-- ==== the visits

/-- A visit fails at a module: it cannot be read, or the path of one of
its imports has a null character. -/
def FailsAt (t : FileTree) (q : Path) (fault : ModuleFault) : Prop :=
  load t q = .error fault
    ∨ fault = .nullInPath ∧ ∃ m, load t q = .ok m ∧ ∃ i ∈ m.imports, i.hasNull = true

/-- How a visit in the course of an addition ends: the path is as it was,
or it leads on to a module at which the visit fails. -/
def EndsWithin (t : FileTree) (extension : String) (root : Path) (g₀ : ModuleGraph)
    (path : List Path) (r : Except ModuleFault Unit × ModuleGraph) : Prop :=
  (∀ g, r = (.ok (), g) → Within t extension root g₀ path g)
    ∧ ∀ fault g, r = (.error fault, g) →
      ∃ q rest, Within t extension root g₀ (q :: rest) g ∧ FailsAt t q fault

/-- A visit that succeeds in a given graph. -/
theorem EndsWithin.ok (h : Within t extension root g₀ path g) :
    EndsWithin t extension root g₀ path (.ok (), g) := by
  refine ⟨fun g' heq => ?_, fun _ _ heq => by cases heq⟩
  cases heq
  exact h

/-- A visit that fails at a module, whatever the path was. -/
theorem EndsWithin.error
    (h : ∃ q rest, Within t extension root g₀ (q :: rest) g ∧ FailsAt t q fault) :
    EndsWithin t extension root g₀ path (.error fault, g) := by
  refine ⟨fun _ heq => (by cases heq), fun fault' g' heq => ?_⟩
  cases heq
  exact h

/-- Visits of modules that may come behind a path end within the
addition.  A module that is marked may come next only if it was so at the
start. -/
def VisitsWithin (t : FileTree) (extension : String) (root : Path) (g₀ : ModuleGraph)
    (v : Path → Visit Unit) (path : List Path) : Prop :=
  ∀ p g, Within t extension root g₀ path g → (p ∈ g.visiting → p ∈ g₀.visiting) → p.root = "/" →
    ReflTransGen (ImportsTo t extension) root p →
    ((p :: path).IsChain fun p q => ImportsTo t extension q p) →
    EndsWithin t extension root g₀ path (outcome (v p) g)

theorem visitImport_within (hv : VisitsWithin t extension root g₀ v (p :: path))
    (hload : load t p = .ok m) (hi : i ∈ m.imports)
    (hg : Within t extension root g₀ (p :: path) g) :
    EndsWithin t extension root g₀ (p :: path) (outcome (visitImport t extension v p i) g) := by
  rw [outcome_visitImport]
  split
  · rename_i hnull
    exact .error ⟨p, path, hg, .inr ⟨rfl, m, hload, i, hi, hnull⟩⟩
  cases hresolve : resolveImport t extension p.parent i.path with
  | none => exact .ok (hg.noted nofun)
  | some target =>
    have hedge : ImportsTo t extension p target := ⟨m, hload, i, hi, hresolve⟩
    dsimp only
    split
    · rename_i hmarked
      exact .ok (hg.noted fun _ => hg.leadsToMark hedge (contains_iff_mem.mp hmarked))
    · rename_i hmarked
      refine hv target g hg (fun hmem => absurd (contains_iff_mem.mpr hmem) hmarked)
        (resolveImport_some hresolve).1 ?_ ?_
      · exact (hg.reached p mem_cons_self).tail hedge
      · exact isChain_cons_cons.mpr ⟨hedge, hg.chain⟩

theorem visitImports_within (hv : VisitsWithin t extension root g₀ v (p :: path))
    (hload : load t p = .ok m) (his : is ⊆ m.imports)
    (hg : Within t extension root g₀ (p :: path) g) :
    EndsWithin t extension root g₀ (p :: path) (outcome (visitImports t extension v p is) g) := by
  induction is generalizing g with
  | nil => exact .ok hg
  | cons i rest ih =>
    obtain ⟨hi, hrest⟩ := cons_subset.mp his
    rw [outcome_visitImports_cons]
    have hfirst := visitImport_within hv hload hi hg
    cases hrun : outcome (visitImport t extension v p i) g with
    | mk result g₁ =>
      rw [hrun] at hfirst
      cases result with
      | ok => exact ih hrest (hfirst.1 g₁ rfl)
      | error fault => exact .error (hfirst.2 fault g₁ rfl)

theorem visit_within (bound : Nat) (path : List Path) :
    VisitsWithin t extension root g₀ (visit t extension bound) path := by
  induction bound generalizing path with
  | zero => exact fun p g hg _ _ _ _ => .ok hg
  | succ bound ih =>
    intro p g hg hold habsolute hreached hchain
    rw [outcome_visit]
    split
    · exact .ok hg
    split
    · -- only the entry itself can be marked before it is visited
      rename_i hmarked
      refine .ok (hg.noted fun _ => .inr ⟨p, ?_, hreached⟩)
      exact hold (contains_iff_mem.mp hmarked)
    split
    · exact .ok (hg.noted nofun)
    rename_i hmarked hmissing
    have hp : p ∉ g.visiting := fun hmem => hmarked (contains_iff_mem.mpr hmem)
    have hfound : t.exists? p = true := by simpa using hmissing
    unfold expanded
    cases hload : load t p with
    | error fault =>
      exact .error ⟨p, path, hg.mark g.modules hp habsolute hfound hreached hchain, .inl hload⟩
    | ok m =>
      have himports := visitImports_within (ih (p :: path)) hload (List.Subset.refl _)
        (hg.mark (g.modules ++ [m]) hp habsolute hfound hreached hchain)
      dsimp only
      cases hrun : outcome (visitImports t extension (visit t extension bound) p m.imports)
          (g.started p m) with
      | mk result g₁ =>
        have hends : EndsWithin t extension root g₀ (p :: path) (result, g₁) := hrun ▸ himports
        cases result with
        | ok => exact .ok (hends.1 g₁ rfl).finished
        | error fault => exact .error (hends.2 fault g₁ rfl)

-- ==== the entries

theorem outcome_addEntry (entry : Path) :
    outcome (addEntry t extension entry) g
      = andThen (outcome (visit t extension (t.entries.length + 2) (t.home.resolve entry)) g)
        fun _ => outcome (pure (t.home.resolve entry)) :=
  outcome_bind _ _ _

theorem addEntry_within (extension : String) (entry : Path) (hopen : Open t g₀.visiting) :
    (∃ r g, outcome (addEntry t extension entry) g₀ = (.ok r, g)
        ∧ Within t extension (t.home.resolve entry) g₀ [] g)
      ∨ ∃ fault g q rest, outcome (addEntry t extension entry) g₀ = (.error fault, g)
        ∧ Within t extension (t.home.resolve entry) g₀ (q :: rest) g ∧ FailsAt t q fault := by
  have hstart : Within t extension (t.home.resolve entry) g₀ [] g₀ := .start hopen
  have hends := visit_within (t.entries.length + 2) []
    (t.home.resolve entry) g₀ hstart id rfl .refl
    (.singleton _)
  rw [outcome_addEntry]
  cases hrun : outcome (visit t extension (t.entries.length + 2) (t.home.resolve entry)) g₀ with
  | mk result g =>
    rw [hrun] at hends
    cases result with
    | ok => exact .inl ⟨t.home.resolve entry, g, rfl, hends.1 g rfl⟩
    | error fault =>
      obtain ⟨q, rest, hwithin, hload⟩ := hends.2 fault g rfl
      exact .inr ⟨fault, g, q, rest, rfl, hwithin, hload⟩

theorem addAll_open (entries : List Path) : Open t (addAll t extension entries).visiting := by
  induction entries using List.reverseRecOn with
  | nil => exact ⟨nodup_nil, nofun, nofun⟩
  | append_singleton entries entry ih =>
    rw [addAll_concat]
    rcases addEntry_within extension entry ih with
      ⟨_, g, hrun, hwithin⟩ | ⟨_, g, _, _, hrun, hwithin, -⟩
    · rw [hrun]
      exact hwithin.opened
    · rw [hrun]
      exact hwithin.opened

theorem forall_additions_concat {P : List Path → Path → Prop} {entries : List Path}
    {entry : Path} :
    (∀ before e, before ++ [e] <+: entries ++ [entry] → P before e)
      ↔ (∀ before e, before ++ [e] <+: entries → P before e) ∧ P entries entry := by
  constructor
  · intro h
    exact ⟨fun before e hfront => h before e (hfront.trans (prefix_append _ _)),
      h entries entry (prefix_refl _)⟩
  · rintro ⟨hall, hlast⟩ before e hfront
    rcases prefix_concat_iff.mp hfront with heq | hfront
    · obtain ⟨rfl, hlastEq⟩ := append_inj' heq rfl
      rw [singleton_inj.mp hlastEq]
      exact hlast
    · exact hall before e hfront

theorem addAll_visiting_nil (entries : List Path) :
    (addAll t extension entries).visiting = [] ↔ ∀ before e, before ++ [e] <+: entries →
      ∃ r, (outcome (addEntry t extension e) (addAll t extension before)).1 = .ok r := by
  induction entries using List.reverseRecOn with
  | nil => exact iff_of_true rfl fun before e hfront => by simp at hfront
  | append_singleton entries entry ih =>
    rw [forall_additions_concat, ← ih, addAll_concat]
    rcases addEntry_within extension entry (addAll_open entries) with
      ⟨r, g, hrun, hwithin⟩ | ⟨fault, g, q, rest, hrun, hwithin, -⟩
    · rw [hrun, hwithin.visiting]
      exact ⟨fun h => ⟨h, r, rfl⟩, And.left⟩
    · rw [hrun, hwithin.visiting]
      exact iff_of_false nofun fun ⟨_, r, hr⟩ => nomatch hr

theorem addAll_marked (entries : List Path) :
    ∀ p ∈ (addAll t extension entries).visiting, ∃ before e fault q, before ++ [e] <+: entries
      ∧ (outcome (addEntry t extension e) (addAll t extension before)).1 = .error fault
      ∧ ReflTransGen (ImportsTo t extension) (t.home.resolve e) p
      ∧ ReflTransGen (ImportsTo t extension) p q ∧ FailsAt t q fault := by
  induction entries using List.reverseRecOn with
  | nil => exact nofun
  | append_singleton entries entry ih =>
    intro p hp
    rw [addAll_concat] at hp
    have hprefix : entries <+: entries ++ [entry] := prefix_append _ _
    rcases addEntry_within extension entry (addAll_open entries) with
      ⟨r, g, hrun, hwithin⟩ | ⟨fault, g, q, rest, hrun, hwithin, hload⟩
    · rw [hrun, hwithin.visiting] at hp
      obtain ⟨before, e, fault, q, hfront, hrest⟩ := ih p hp
      exact ⟨before, e, fault, q, hfront.trans hprefix, hrest⟩
    · rw [hrun, hwithin.visiting] at hp
      rcases mem_append.mp hp with hp | hp
      · exact ⟨entries, entry, fault, q, prefix_refl _, by rw [hrun], hwithin.reached p hp,
          reaches_of_chain hwithin.chain p hp, hload⟩
      · obtain ⟨before, e, fault', q', hfront, hrest⟩ := ih p hp
        exact ⟨before, e, fault', q', hfront.trans hprefix, hrest⟩

/-- What failures leave in a session on one graph.  Nothing is marked as
being visited exactly if every addition so far succeeded; a marked module
stands on a path of imports from an entry whose addition failed to the
module that made it fail.  A further addition is never cut short by its
bound, and it reports a circular import only if its entry reaches a cycle
or a module that a failure left marked. -/
theorem addAll_failures (t : FileTree) (extension : String) (entries : List Path) :
    ((addAll t extension entries).visiting = [] ↔ ∀ before e, before ++ [e] <+: entries →
        ∃ r, (outcome (addEntry t extension e) (addAll t extension before)).1 = .ok r)
      ∧ (∀ p ∈ (addAll t extension entries).visiting, ∃ before e fault q,
        before ++ [e] <+: entries
          ∧ (outcome (addEntry t extension e) (addAll t extension before)).1 = .error fault
          ∧ ReflTransGen (ImportsTo t extension) (t.home.resolve e) p
          ∧ ReflTransGen (ImportsTo t extension) p q ∧ FailsAt t q fault)
      ∧ ∀ entry,
        (∀ bound, t.entries.length + 2 ≤ bound →
          outcome (visit t extension bound (t.home.resolve entry)) (addAll t extension entries)
            = outcome (visit t extension (t.entries.length + 2) (t.home.resolve entry))
              (addAll t extension entries))
        ∧ ∃ issues, (addAll t extension (entries ++ [entry])).issues
            = (addAll t extension entries).issues ++ issues
          ∧ ∀ issue ∈ issues, "Circular import".toList <+: issue.finding.message.toList →
            HasCycle t extension (t.home.resolve entry)
              ∨ ∃ p ∈ (addAll t extension entries).visiting,
                ReflTransGen (ImportsTo t extension) (t.home.resolve entry) p := by
  refine ⟨addAll_visiting_nil entries, addAll_marked entries, fun entry =>
    ⟨fun bound hbound => outcome_visit_bound_of_open (addAll_open entries) rfl hbound, ?_⟩⟩
  have hadded : ∀ {path r g}, outcome (addEntry t extension entry)
      (addAll t extension entries) = (r, g) →
      Within t extension (t.home.resolve entry) (addAll t extension entries) path g →
      ∃ issues, (addAll t extension (entries ++ [entry])).issues
          = (addAll t extension entries).issues ++ issues
        ∧ ∀ issue ∈ issues, "Circular import".toList <+: issue.finding.message.toList →
          LeadsToMark t extension (addAll t extension entries) (t.home.resolve entry) := by
    intro path r g hrun hwithin
    obtain ⟨issues, hissues, hall⟩ := hwithin.added
    refine ⟨issues, ?_, fun issue hmem hmessage => ?_⟩
    · rw [addAll_concat, hrun]
      exact hissues
    · exact hall issue hmem ((circular_message issue.finding).mp hmessage)
  rcases addEntry_within extension entry (addAll_open entries) with
    ⟨r, g, hrun, hwithin⟩ | ⟨fault, g, q, rest, hrun, hwithin, -⟩
  · exact hadded hrun hwithin
  · exact hadded hrun hwithin

-- ==== a session that fails

/-- Two files, the first of which imports the second, which is no text. -/
def brokenTree : FileTree :=
  { home := ⟨"/", []⟩
    entries := [(["main.nova"], .file (.text "import \"lib\";")),
                (["lib.nova"], .file (.ofBytes [0xff]))] }

/-- The modules that the one at a path imports. -/
def importsOf (t : FileTree) (extension : String) (p : Path) : List Path :=
  match load t p with
  | .error _ => []
  | .ok m => m.imports.filterMap fun i => resolveImport t extension p.parent i.path

theorem importsTo_iff : ImportsTo t extension p q ↔ q ∈ importsOf t extension p := by
  unfold ImportsTo importsOf
  cases hload : load t p with
  | error e => exact iff_of_false (fun ⟨_, h, _⟩ => nomatch h) not_mem_nil
  | ok m => simp [mem_filterMap]

theorem brokenTree_acyclic :
    ¬HasCycle brokenTree defaultExtension (brokenTree.home.resolve (.ofString "main.nova")) := by
  have hroot : brokenTree.home.resolve (.ofString "main.nova") = ⟨"/", ["main.nova"]⟩ := by
    decide +kernel
  have hmain : importsOf brokenTree defaultExtension ⟨"/", ["main.nova"]⟩
      = [⟨"/", ["lib.nova"]⟩] := by
    decide +kernel
  have hlib : importsOf brokenTree defaultExtension ⟨"/", ["lib.nova"]⟩ = [] := by decide +kernel
  have hnone : ∀ q, ¬TransGen (ImportsTo brokenTree defaultExtension) ⟨"/", ["lib.nova"]⟩ q := by
    intro q hpath
    obtain ⟨r, hedge, -⟩ := TransGen.head'_iff.mp hpath
    rw [importsTo_iff, hlib] at hedge
    cases hedge
  rw [hroot]
  rintro ⟨p, hreached, hcycle⟩
  rcases hreached.cases_head with rfl | ⟨q, hedge, hpath⟩
  · -- the first import of a cycle from the first file leads to the second
    obtain ⟨q, hedge, hback⟩ := TransGen.head'_iff.mp hcycle
    rw [importsTo_iff, hmain, mem_singleton] at hedge
    subst hedge
    rcases hback.cases_head with heq | ⟨r, hedge, hpath⟩
    · exact absurd heq (by decide)
    · exact hnone _ (TransGen.head' hedge hpath)
  · rw [importsTo_iff, hmain, mem_singleton] at hedge
    subst hedge
    rcases hpath.cases_head with rfl | ⟨r, hedge, hpath⟩
    · exact hnone _ hcycle
    · exact hnone _ (TransGen.head' hedge hpath)

theorem brokenTree_issue :
    ∃ issue ∈ (addAll brokenTree defaultExtension
        [.ofString "lib.nova", .ofString "main.nova"]).issues,
      "Circular import".toList <+: issue.finding.message.toList := by
  decide +kernel

/-- When the second file could not be read it stays marked, and the import
of the first one is reported as circular, though no cycle is reached. -/
theorem addEntry_behind_failure :
    (addAll brokenTree defaultExtension [.ofString "lib.nova"]).visiting ≠ []
      ∧ (∃ issue ∈ (addAll brokenTree defaultExtension
          [.ofString "lib.nova", .ofString "main.nova"]).issues,
        "Circular import".toList <+: issue.finding.message.toList)
      ∧ ¬HasCycle brokenTree defaultExtension (brokenTree.home.resolve (.ofString "main.nova")) :=
  ⟨by decide +kernel, brokenTree_issue, brokenTree_acyclic⟩

/-- In that session the entry added next reaches the module that was left
marked. -/
theorem addAll_failures_broken :
    ∃ p ∈ (addAll brokenTree defaultExtension [.ofString "lib.nova"]).visiting,
      ReflTransGen (ImportsTo brokenTree defaultExtension)
        (brokenTree.home.resolve (.ofString "main.nova")) p := by
  obtain ⟨-, -, hnext⟩ := addAll_failures brokenTree defaultExtension [.ofString "lib.nova"]
  obtain ⟨-, issues, hissues, hcircular⟩ := hnext (.ofString "main.nova")
  have hnil : (addAll brokenTree defaultExtension [.ofString "lib.nova"]).issues = [] := by
    decide +kernel
  rw [hnil, List.nil_append] at hissues
  obtain ⟨issue, hmem, hmessage⟩ := brokenTree_issue
  have hadded : issue ∈ issues := hissues ▸ hmem
  exact (hcircular issue hadded hmessage).resolve_left brokenTree_acyclic

end SketchCompiler.ModuleGraph
