/-
What changes of a file tree change.  Making a directory adds directories
on the way to it and nothing else (`makeDirectory_grows`); writing a file
sets what stands at one place (`write_writes`).

Making a directory can fail when some of its parents have been made:
behind two dots the path may lead back to a file.  Without two dots that
does not happen in a tree whose entries stand in directories
(`makeFrom_error_unchanged`).
-/
import Mathlib.Data.List.Induction
import SketchCompiler.FileTree

namespace SketchCompiler.FileTree

open List

variable {t t' t₁ : FileTree} {p : Path} {root : String} {place names : List String}

-- ==== entries

theorem lookup_replace (entries : List (List String × Entry)) (names other : List String)
    (e : Entry) :
    (entries.map fun (n, old) => (n, if n == names then e else old)).lookup other
      = (entries.lookup other).map fun old => if other == names then e else old := by
  induction entries with
  | nil => rfl
  | cons entry rest ih =>
    obtain ⟨n, old⟩ := entry
    rw [map_cons, lookup_cons, lookup_cons, ih]
    by_cases hn : other = n
    · subst hn
      simp
    · have hkey : (other == n) = false := beq_false_of_ne hn
      rw [hkey]

theorem entry?_put (hnames : names ≠ []) (e : Entry) (other : List String) :
    FileTree.entry? (t.put names e) other = if other = names then some e else t.entry? other := by
  by_cases hother : other = []
  · subst hother
    simp [ entry?, hnames.symm]
  unfold entry? put
  simp only [List.isEmpty_iff, hother, if_false]
  by_cases hknown : (t.entries.lookup names).isSome
  · rw [if_pos hknown]
    show List.lookup other (t.entries.map _) = _
    rw [lookup_replace]
    by_cases heq : other = names
    · subst heq
      obtain ⟨old, hold⟩ := Option.isSome_iff_exists.mp hknown
      simp [hold]
    · simp [heq]
  · rw [if_neg hknown]
    show List.lookup other (t.entries ++ [(names, e)]) = _
    rw [List.lookup_append]
    by_cases heq : other = names
    · subst heq
      simp [Option.not_isSome_iff_eq_none.mp hknown]
    · have hkey : (other == names) = false := beq_false_of_ne heq
      rw [if_neg heq, lookup_cons, hkey]
      exact Option.or_none

theorem ne_nil_of_not_directory (h : t.entry? place ≠ some .directory) : place ≠ [] := by
  rintro rfl
  exact h rfl

-- ==== ways

/-- A tree keeps the directories of another one. -/
structure Keeps (t t' : FileTree) : Prop where
  home : t'.home = t.home
  directory : ∀ place, t.entry? place = some .directory → t'.entry? place = some .directory

theorem Keeps.follow (h : Keeps t t') (hfollow : t.follow place names = .reached reached) :
    t'.follow place names = .reached reached := by
  induction names generalizing place with
  | nil => exact hfollow
  | cons name rest ih =>
    unfold FileTree.follow at hfollow ⊢
    split at hfollow
    · cases hfollow
    · cases hfollow
    · rename_i hentry
      rw [h.directory place hentry]
      dsimp only
      split at hfollow
      · rename_i hname
        rw [if_pos hname]
        exact ih hfollow
      · rename_i hname
        rw [if_neg hname]
        exact ih hfollow

theorem Keeps.locate (h : Keeps t t') (hlocate : t.locate p = .reached place) :
    t'.locate p = .reached place := by
  unfold FileTree.locate at hlocate ⊢
  rw [h.home]
  exact h.follow hlocate

/-- Putting an entry where no directory stands keeps the directories. -/
theorem Keeps.put (h : t.entry? place ≠ some .directory) : Keeps t (t.put place e) where
  home := by
    unfold FileTree.put
    split <;> rfl
  directory other hother := by
    rw [entry?_put (ne_nil_of_not_directory h)]
    by_cases heq : other = place
    · rw [heq] at hother
      exact absurd hother h
    · rw [if_neg heq]
      exact hother

/-- A directory stands where a path leads to. -/
def HasDirectory (t : FileTree) (p : Path) : Prop :=
  ∃ place, t.locate p = .reached place ∧ t.entry? place = some .directory

/-- A place on the way along a path: where a front part of it leads
to. -/
def OnWay (t : FileTree) (p : Path) (place : List String) : Prop :=
  ∃ front, front <+: p.names ∧ t.locate ⟨p.root, front⟩ = .reached place

theorem OnWay.mono (h : t.OnWay ⟨root, ns⟩ place) (hns : ns <+: ns') :
    t.OnWay ⟨root, ns'⟩ place := by
  obtain ⟨front, hfront, hlocate⟩ := h
  exact ⟨front, hfront.trans hns, hlocate⟩

-- ==== growth

/-- A tree differs from another one in new directories on the way along a
path at most. -/
structure Grows (t : FileTree) (p : Path) (t' : FileTree) : Prop where
  home : t'.home = t.home
  kept : ∀ place e, t.entry? place = some e → t'.entry? place = some e
  added : ∀ place, t.entry? place = none → t'.entry? place = none
    ∨ t'.entry? place = some .directory ∧ t'.OnWay p place

theorem Grows.keeps (h : t.Grows p t') : Keeps t t' :=
  ⟨h.home, fun place => h.kept place .directory⟩

theorem Grows.refl : t.Grows p t := ⟨rfl, fun _ _ h => h, fun _ h => .inl h⟩

theorem Grows.mono (h : t.Grows ⟨root, ns⟩ t') (hns : ns <+: ns') : t.Grows ⟨root, ns'⟩ t' where
  home := h.home
  kept := h.kept
  added place hplace := (h.added place hplace).imp_right (And.imp_right (OnWay.mono · hns))

theorem Grows.trans (h : t.Grows p t₁) (h' : t₁.Grows p t') : t.Grows p t' where
  home := h'.home.trans h.home
  kept place e he := h'.kept place e (h.kept place e he)
  added place hplace := by
    rcases h.added place hplace with hnone | ⟨hdirectory, front, hfront, hlocate⟩
    · exact h'.added place hnone
    · exact .inr ⟨h'.kept place _ hdirectory, front, hfront, h'.keeps.locate hlocate⟩

theorem makeLast_cases (h : t.makeLast p = some (.ok t')) : t.Grows p t' ∧ t'.HasDirectory p := by
  unfold makeLast at h
  cases hlocate : t.locate p with
  | missing | blocked => rw [hlocate] at h; cases h
  | reached place =>
    rw [hlocate] at h
    dsimp only at h
    cases hentry : t.entry? place with
    | none =>
      rw [hentry] at h
      cases h
      have hfree : t.entry? place ≠ some .directory := by rw [hentry]; nofun
      have hput := entry?_put (t := t) (ne_nil_of_not_directory hfree) .directory
      have hkeeps : Keeps t (t.put place .directory) := .put hfree
      refine ⟨⟨hkeeps.home, fun other e he => ?_, fun other hother => ?_⟩,
        place, hkeeps.locate hlocate, by rw [hput, if_pos rfl]⟩
      · rw [hput, if_neg]
        · exact he
        · rintro rfl
          rw [hentry] at he
          cases he
      · rw [hput]
        by_cases heq : other = place
        · subst heq
          exact .inr ⟨if_pos rfl, p.names, prefix_refl _, hkeeps.locate hlocate⟩
        · rw [if_neg heq]
          exact .inl hother
    | some e =>
      rw [hentry] at h
      cases e with
      | file content => cases h
      | directory =>
        cases h
        exact ⟨.refl, place, hlocate, hentry⟩

theorem orUnchanged_cases (h : t.orUnchanged r = (outcome, t')) :
    (∃ fault, r = .error fault ∧ outcome = .error fault ∧ t' = t)
      ∨ r = .ok t' ∧ outcome = .ok () := by
  cases r with
  | error fault =>
    cases h
    exact .inl ⟨fault, rfl, rfl, rfl⟩
  | ok changed =>
    cases h
    exact .inr ⟨rfl, rfl⟩

theorem makeFrom_grows (h : t.makeFrom root names = (outcome, t')) :
    t.Grows ⟨root, names.reverse⟩ t'
      ∧ (outcome = .ok () → t' = t ∧ names = [] ∨ t'.HasDirectory ⟨root, names.reverse⟩) := by
  induction names generalizing t' outcome with
  | nil =>
    cases h
    exact ⟨.refl, fun _ => .inl ⟨rfl, rfl⟩⟩
  | cons name above ih =>
    have habove : above.reverse <+: (name :: above).reverse := by
      rw [reverse_cons]
      exact prefix_append _ _
    -- the last step, from a tree that has grown along the parents
    have hlast : ∀ {t₁ : FileTree} {r}, t.Grows ⟨root, (name :: above).reverse⟩ t₁ →
        (∀ made, r = .ok made → t₁.makeLast ⟨root, (name :: above).reverse⟩ = some (.ok made)) →
        t₁.orUnchanged r = (outcome, t') → t.Grows ⟨root, (name :: above).reverse⟩ t'
          ∧ (outcome = .ok () → t' = t ∧ name :: above = []
            ∨ t'.HasDirectory ⟨root, (name :: above).reverse⟩) := by
      intro t₁ r hgrows hmade hrun
      rcases orUnchanged_cases hrun with ⟨fault, -, rfl, rfl⟩ | ⟨hr, -⟩
      · exact ⟨hgrows, nofun⟩
      · obtain ⟨hgrows', hdirectory⟩ := makeLast_cases (hmade _ hr)
        exact ⟨hgrows.trans hgrows', fun _ => .inr hdirectory⟩
    unfold makeFrom at h
    dsimp only at h
    split at h
    · rename_i made hmade
      refine hlast .refl (fun changed hchanged => ?_) h
      rw [hmade, hchanged]
    · split at h
      · rename_i fault t₁ hrun
        cases h
        exact ⟨(ih hrun).1.mono habove, nofun⟩
      · rename_i t₁ hrun
        refine hlast ((ih hrun).1.mono habove) (fun changed hchanged => ?_) h
        cases hmade : t₁.makeLast ⟨root, (name :: above).reverse⟩ with
        | none => rw [hmade] at hchanged; cases hchanged
        | some made => rw [hmade] at hchanged; rw [← hchanged]; rfl

theorem makeDirectory_grows (h : t.makeDirectory p = (outcome, t')) :
    t.Grows p t' ∧ (outcome = .ok () → t' = t ∨ t'.HasDirectory p) := by
  obtain ⟨hgrows, hdirectory⟩ := makeFrom_grows h
  rw [reverse_reverse] at hgrows hdirectory
  exact ⟨hgrows, fun hok => (hdirectory hok).imp_left And.left⟩

-- ==== trees as such

/-- Every entry of a tree stands in a directory. -/
def Rooted (t : FileTree) : Prop :=
  ∀ place name, t.entry? (place ++ [name]) ≠ none → t.entry? place = some .directory

theorem follow_append (h : t.follow place ns = .reached reached) :
    t.follow place (ns ++ ns') = t.follow reached ns' := by
  induction ns generalizing place with
  | nil =>
    cases h
    rfl
  | cons name rest ih =>
    unfold follow at h
    split at h
    · cases h
    · cases h
    · rename_i hentry
      rw [cons_append, follow, hentry]
      dsimp only
      split at h
      · rename_i hname
        rw [if_pos hname]
        exact ih h
      · rename_i hname
        rw [if_neg hname]
        exact ih h

theorem Rooted.follow (h : t.Rooted) (hdots : ".." ∉ names)
    (hentry : t.entry? (place ++ names) ≠ none) :
    t.follow place names = .reached (place ++ names) := by
  induction names generalizing place with
  | nil =>
    rw [append_nil]
    rfl
  | cons name rest ih =>
    have hassoc : place ++ name :: rest = place ++ [name] ++ rest := by
      rw [append_assoc, singleton_append]
    rw [hassoc] at hentry ⊢
    -- what leads to an entry is a directory
    have hdirectory : ∀ rest : List String, t.entry? (place ++ [name] ++ rest) ≠ none →
        t.entry? place = some .directory := by
      intro rest
      induction rest using List.reverseRecOn with
      | nil =>
        rw [append_nil]
        exact h place name
      | append_singleton front last ih =>
        intro hlast
        rw [← append_assoc] at hlast
        refine ih ?_
        rw [h _ _ hlast]
        nofun
    have hname : (name == "..") = false := by
      rw [beq_eq_false_iff_ne]
      rintro rfl
      exact hdots mem_cons_self
    unfold FileTree.follow
    rw [hdirectory rest hentry]
    simp only [hname]
    exact ih (fun hmem => hdots (mem_cons_of_mem _ hmem)) hentry

theorem follow_reached (h : ".." ∉ names) (hfollow : t.follow place names = .reached reached) :
    reached = place ++ names := by
  induction names generalizing place with
  | nil =>
    cases hfollow
    rw [append_nil]
  | cons name rest ih =>
    obtain ⟨hname, hrest⟩ := not_or.mp (fun hor => h (mem_cons.mpr hor))
    unfold follow at hfollow
    split at hfollow
    · cases hfollow
    · cases hfollow
    · rw [if_neg (by simpa using fun h => hname h.symm)] at hfollow
      rw [ih hrest hfollow, append_assoc]
      rfl

theorem join_append (home : Path) (behind : List String) :
    (home.join ⟨root, names ++ behind⟩).names = (home.join ⟨root, names⟩).names ++ behind := by
  unfold Path.join
  dsimp only
  split
  · exact (append_assoc _ _ _).symm
  · rfl

theorem locate_concat (hname : name ≠ "..") (hlocate : t.locate ⟨root, names⟩ = .reached place)
    (hentry : t.entry? place = some .directory) :
    t.locate ⟨root, names ++ [name]⟩ = .reached (place ++ [name]) := by
  unfold locate at hlocate ⊢
  rw [join_append, follow_append hlocate, follow, hentry]
  dsimp only
  rw [if_neg (by simpa using hname)]
  rfl

theorem makeLast_eq_none (h : t.makeLast p = none) : t.locate p = .missing := by
  unfold makeLast at h
  split at h
  · assumption
  · cases h
  · split at h <;> cases h

theorem makeLast_error (h : t.makeLast p = some (.error fault))
    (hlocate : t.locate p = .reached place) :
    ∃ content, t.entry? place = some (.file content) := by
  unfold makeLast at h
  rw [hlocate] at h
  dsimp only at h
  split at h
  · cases h
  · cases h
  · rename_i content hentry
    exact ⟨content, hentry⟩

theorem makeFrom_error_unchanged (hrooted : t.Rooted)
    (hdots : ".." ∉ (t.home.join ⟨root, names.reverse⟩).names)
    (h : t.makeFrom root names = (.error fault, t')) : t' = t := by
  induction names generalizing t' fault with
  | nil => cases h
  | cons name above ih =>
    rw [reverse_cons, join_append] at hdots
    have habove : ".." ∉ (t.home.join ⟨root, above.reverse⟩).names :=
      fun hmem => hdots (mem_append_left _ hmem)
    have hname : name ≠ ".." := by
      rintro rfl
      exact hdots (mem_append_right _ mem_cons_self)
    unfold makeFrom at h
    dsimp only at h
    split at h
    · rcases orUnchanged_cases h with ⟨-, -, -, rfl⟩ | ⟨-, hok⟩
      · rfl
      · cases hok
    rename_i hnone
    have hmissing := makeLast_eq_none hnone
    split at h
    · rename_i hrun
      cases h
      exact ih habove hrun
    rename_i t₁ hrun
    obtain ⟨hgrows, hdirectory⟩ := makeFrom_grows hrun
    rcases hdirectory rfl with ⟨rfl, rfl⟩ | ⟨place, hlocate, hentry⟩
    · -- the path has one name only, and what it starts from is missing
      rw [hnone] at h
      rcases orUnchanged_cases h with ⟨-, -, -, rfl⟩ | ⟨-, hok⟩
      · rfl
      · cases hok
    -- the parents are there now, and nothing stood where the path leads to
    have hplace : place = (t.home.join ⟨root, above.reverse⟩).names := by
      unfold locate at hlocate
      rw [hgrows.home] at hlocate
      exact follow_reached habove hlocate
    have hreached := locate_concat hname hlocate hentry
    rw [← reverse_cons] at hreached
    have hfree : t.entry? (place ++ [name]) = none := by
      by_contra hsome
      have hfollow : t.follow [] (place ++ [name]) = .reached ([] ++ (place ++ [name])) :=
        hrooted.follow (hplace ▸ hdots) hsome
      unfold locate at hmissing
      rw [reverse_cons, join_append, ← hplace, hfollow] at hmissing
      cases hmissing
    cases hmade : t₁.makeLast ⟨root, (name :: above).reverse⟩ with
    | none =>
      rw [makeLast_eq_none hmade] at hreached
      cases hreached
    | some made =>
      rw [hmade] at h
      rcases orUnchanged_cases h with ⟨_, hfault, -, -⟩ | ⟨-, hok⟩
      · rw [Option.getD_some] at hfault
        rw [hfault] at hmade
        obtain ⟨content, hfile⟩ := makeLast_error hmade hreached
        rcases hgrows.added _ hfree with hadded | ⟨hadded, -⟩
        · rw [hadded] at hfile
          cases hfile
        · rw [hadded] at hfile
          cases hfile
      · cases hok

theorem makeDirectory_error_unchanged (hrooted : t.Rooted) (hdots : ".." ∉ (t.home.join p).names)
    (h : t.makeDirectory p = (.error fault, t')) : t' = t := by
  refine makeFrom_error_unchanged hrooted ?_ h
  rw [reverse_reverse]
  exact hdots

-- ==== writing

/-- A tree differs from another one in the text of the file that a path
leads to and in new directories on the way to it, at most. -/
structure Writes (t : FileTree) (p : Path) (text : String) (t' : FileTree) : Prop where
  home : t'.home = t.home
  written : ∃ place, t'.locate p = .reached place
    ∧ t'.entry? place = some (.file (.text text)) ∧ t.entry? place ≠ some .directory
    ∧ ∀ other, other ≠ place → t'.entry? other = t.entry? other
      ∨ t.entry? other = none ∧ t'.entry? other = some .directory ∧ t'.OnWay p.parent other

/-- Writing to a file behind the making of its directory. -/
theorem Grows.write (h : t.Grows p.parent t₁) (hwrite : t₁.write p text = .ok t') :
    t.Writes p text t' := by
  unfold FileTree.write at hwrite
  cases hlocate : t₁.locate p with
  | missing | blocked => rw [hlocate] at hwrite; cases hwrite
  | reached place =>
    rw [hlocate] at hwrite
    dsimp only at hwrite
    split at hwrite
    · cases hwrite
    rename_i hfree
    cases hwrite
    have hput := entry?_put (t := t₁) (ne_nil_of_not_directory hfree) (.file (.text text))
    have hkeeps : Keeps t₁ (t₁.put place (.file (.text text))) := .put hfree
    refine ⟨hkeeps.home.trans h.home, place, hkeeps.locate hlocate, ?_, fun hentry => ?_,
      fun other hother => ?_⟩
    · rw [hput, if_pos rfl]
    · exact hfree (h.kept place _ hentry)
    · rw [hput, if_neg hother]
      cases hentry : t.entry? other with
      | some e => exact .inl (h.kept other e hentry)
      | none =>
        refine (h.added other hentry).imp_right fun ⟨hdirectory, front, hfront, hway⟩ => ?_
        exact ⟨rfl, hdirectory, front, hfront, hkeeps.locate hway⟩

end SketchCompiler.FileTree
