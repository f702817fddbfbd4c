/-
Where the lines of a sketch stand.  A sketch has five areas to which
declarations add lines: the struct types, the global variables, the
functions, and the bodies of `setup` and `loop`.  Inside an area the
declarations come in their own order.

`Program.placed` lists the lines of a sketch with their places: the area,
the number of the declaration that adds the line, and whether it is the
first line added there.  Forgetting the places gives back the sketch
(`Program.placed_lines`), and the places grow from line to line
(`Program.placed_ordered`), so the place of a line tells what stands
before it (`before_of_mem`, `mem_of_before`).
-/
import SketchCompiler.Proofs.WrittenProgram

namespace SketchCompiler

open List

variable {backend : Backend} {p : Program} {low high : Nat} {ls : List PlacedLine}

-- ==== places

/-- The areas of a sketch to which declarations add lines. -/
inductive Area where
  | structs
  | globals
  | functions
  | setup
  | loop
  deriving DecidableEq, Repr

/-- The areas are numbered in the order of the sketch. -/
def Area.rank : Area → Nat
  | structs => 0
  | globals => 1
  | functions => 2
  | setup => 3
  | loop => 4

theorem Area.rank_injective {a b : Area} (h : a.rank = b.rank) : a = b := by
  cases a <;> cases b <;> first | rfl | cases h

/-- A place in a sketch: an area, the number of the declaration that adds
the line, and whether it is the first one added there. -/
structure Place where
  area : Area
  index : Nat
  isFirst : Bool
  deriving DecidableEq, Repr

/-- A line and its place, if a declaration adds it. -/
structure PlacedLine where
  line : Line
  place : Option Place := none
  deriving DecidableEq, Repr

/-- The one place stands before the other. -/
def Place.Before (a b : Place) : Prop :=
  a.area.rank < b.area.rank ∨ (a.area = b.area ∧
    (a.index < b.index ∨ (a.index = b.index ∧ a.isFirst = true ∧ b.isFirst = false)))

/-- How many declarations have their first lines before a place, in its
area. -/
def Place.reached (place : Place) : Nat :=
  if place.isFirst then place.index else place.index + 1

theorem Place.index_le_reached (place : Place) : place.index ≤ place.reached := by
  unfold Place.reached
  split <;> omega

theorem Place.first_before {area : Area} {k : Nat} {place : Place} :
    (⟨area, k, true⟩ : Place).Before place
      ↔ area.rank < place.area.rank ∨ (area = place.area ∧ k < place.reached) := by
  obtain ⟨area', index, isFirst⟩ := place
  unfold Place.Before Place.reached
  cases isFirst with
  | true => simp only [Bool.true_eq_false, and_false, or_false, if_true]
  | false =>
    have hindex : k < index ∨ k = index ↔ k < index + 1 := by omega
    simp only [and_true, Bool.false_eq_true, if_false, hindex]

theorem Place.Before.irrefl (a : Place) : ¬ a.Before a := by
  rintro (h | ⟨-, h | ⟨-, h, h'⟩⟩)
  · exact Nat.lt_irrefl _ h
  · exact Nat.lt_irrefl _ h
  · rw [h] at h'
    cases h'

theorem Place.Before.asymm {a b : Place} (h : a.Before b) : ¬ b.Before a := by
  intro h'
  rcases h with hrank | ⟨harea, h⟩
  · rcases h' with hrank' | ⟨harea', -⟩
    · omega
    · rw [harea'] at hrank
      exact Nat.lt_irrefl _ hrank
  · rcases h' with hrank' | ⟨-, h'⟩
    · rw [harea] at hrank'
      exact Nat.lt_irrefl _ hrank'
    · rcases h with hindex | ⟨hindex, hfirst, -⟩
      · rcases h' with hindex' | ⟨hindex', -⟩ <;> omega
      · rcases h' with hindex' | ⟨-, -, hfirst'⟩
        · omega
        · rw [hfirst] at hfirst'
          cases hfirst'

/-- A line may stand before another: its place does, or both have one
place and there are more lines there. -/
def PlacedLine.Upto (l m : PlacedLine) : Prop :=
  ∀ a ∈ l.place, ∀ b ∈ m.place, a.Before b ∨ (a = b ∧ a.isFirst = false)

-- ==== placed lines

/-- Lines that no declaration adds. -/
def unplaced (lines : List Line) : List PlacedLine :=
  lines.map (⟨·, none⟩)

/-- The lines that each declaration adds to an area, with their places. -/
def placeFrom (area : Area) : Nat → List (List Line) → List PlacedLine
  | _, [] => []
  | index, [] :: rest => placeFrom area (index + 1) rest
  | index, (first :: others) :: rest =>
    ⟨first, some ⟨area, index, true⟩⟩ :: others.map (⟨·, some ⟨area, index, false⟩⟩)
      ++ placeFrom area (index + 1) rest

/-- The body of a function that declarations add to, or its one comment
when it is empty. -/
def placeBody (comment : String) (area : Area) (pieces : List (List Line)) : List PlacedLine :=
  if pieces.flatten.isEmpty then unplaced [Line.indent ⟨comment, none⟩]
  else placeFrom area 0 (pieces.map (·.map (·.indent)))

/-- The lines of the sketch of a program, with their places. -/
def Program.placed (backend : Backend) (p : Program) : Except EmitFault (List PlacedLine) := do
  let cx := Sketch.context backend p (p.declarations.length + 1)
  let pieces ← p.declarations.mapM (Sketch.ofDecl cx)
  let blank : Line := ⟨"", none⟩
  let prototypes := p.declarations.flatMap Sketch.taskPrototype
  return unplaced (Sketch.opening backend (Headers.ofProgram p))
    ++ placeFrom .structs 0 (p.declarations.map Sketch.structType)
    ++ unplaced (prototypes ++ if prototypes.isEmpty then [] else [blank])
    ++ placeFrom .globals 0 (pieces.map (·.globals))
    ++ unplaced [blank]
    ++ placeFrom .functions 0 (pieces.map fun s => s.functions.flatMap (· ++ [blank]))
    ++ unplaced [⟨"void setup() \x7b", none⟩]
    ++ placeBody "// setup" .setup (pieces.map (·.setup))
    ++ unplaced [⟨"\x7d", none⟩, blank, ⟨"void loop() \x7b", none⟩]
    ++ placeBody "// loop" .loop (pieces.map (·.loop))
    ++ unplaced [⟨"\x7d", none⟩]

@[simp] theorem map_line_unplaced (lines : List Line) : (unplaced lines).map (·.line) = lines := by
  simp [unplaced, Function.comp_def]

@[simp] theorem map_line_placeFrom (area : Area) (index : Nat) (pieces : List (List Line)) :
    (placeFrom area index pieces).map (·.line) = pieces.flatten := by
  fun_induction placeFrom area index pieces with
  | case1 => rfl
  | case2 index rest ih => exact ih
  | case3 index first others rest ih =>
    simp only [map_append, map_cons, map_map, ih, flatten_cons, Function.comp_def, map_id']

@[simp] theorem map_line_placeBody (comment : String) (area : Area) (pieces : List (List Line)) :
    (placeBody comment area pieces).map (·.line) = Sketch.bodyOr comment pieces.flatten := by
  unfold placeBody Sketch.bodyOr
  split
  · simp
  · rw [map_line_placeFrom, map_flatten]

theorem Sketch.ofDecls_pieces : ∀ {ds : List Stmt} {s : Sections},
    ofDecls cx ds = .ok s → ∃ pieces, ds.mapM (ofDecl cx) = .ok pieces
      ∧ s.globals = (pieces.map (·.globals)).flatten
      ∧ s.functions = (pieces.map (·.functions)).flatten
      ∧ s.setup = (pieces.map (·.setup)).flatten ∧ s.loop = (pieces.map (·.loop)).flatten
  | [], _, h => by
    cases h
    exact ⟨[], rfl, rfl, rfl, rfl, rfl⟩
  | d :: ds, _, h => by
    obtain ⟨first, hfirst, rest, hrest, rfl⟩ := bind₂_ok h
    obtain ⟨pieces, hpieces, hglobals, hfunctions, hsetup, hloop⟩ := ofDecls_pieces hrest
    refine ⟨first :: pieces, ?_, ?_, ?_, ?_, ?_⟩
    · rw [mapM_cons, hfirst, hpieces]
      rfl
    · exact congrArg (first.globals ++ ·) hglobals
    · exact congrArg (first.functions ++ ·) hfunctions
    · exact congrArg (first.setup ++ ·) hsetup
    · exact congrArg (first.loop ++ ·) hloop

theorem Program.placed_lines {sk : Sketch} (h : p.sketch backend = .ok sk) :
    ∃ placed, p.placed backend = .ok placed ∧ placed.map (·.line) = sk.lines := by
  rw [sketch_eq, bind_eq_ok] at h
  obtain ⟨sections, hsections, hsk⟩ := h
  obtain ⟨pieces, hpieces, hglobals, hfunctions, hsetup, hloop⟩ := Sketch.ofDecls_pieces hsections
  refine ⟨_, by rw [Program.placed, hpieces]; rfl, ?_⟩
  have hopening : (Sketch.opening backend (Headers.ofProgram p) ++ p.preamble
      ++ sections.globals).isEmpty = false := by
    rw [isEmpty_eq_false_iff]
    intro hnil
    exact opening_ne_nil _ _ (append_eq_nil_iff.mp (append_eq_nil_iff.mp hnil).1).1
  have hcompose : sk.lines = Sketch.compose
      { globals := Sketch.opening backend (Headers.ofProgram p) ++ p.preamble ++ sections.globals
        functions := sections.functions, setup := sections.setup, loop := sections.loop } := by
    rw [← pure_eq_ok.mp hsk]
    rfl
  have hflat : (pieces.map fun s => s.functions.flatMap (· ++ [(⟨"", none⟩ : Line)])).flatten
      = sections.functions.flatMap (· ++ [⟨"", none⟩]) := by
    rw [hfunctions, flatMap_def, map_flatten, map_map, flatten_flatten, map_map]
    rfl
  have hstructs : (p.declarations.map Sketch.structType).flatten
      = p.declarations.flatMap Sketch.structType := flatMap_def.symm
  rw [hcompose, Sketch.compose, hopening]
  simp only [map_append, map_line_unplaced, map_line_placeFrom, map_line_placeBody, hflat,
    hstructs, ← hglobals, ← hsetup, ← hloop, Program.preamble, append_assoc,
    Bool.false_eq_true, if_false, cons_append, nil_append]

-- ==== order

/-- The places of the lines grow, and their areas are between two
numbers. -/
structure Ordered (low high : Nat) (ls : List PlacedLine) : Prop where
  sorted : ls.Pairwise PlacedLine.Upto
  low : ∀ l ∈ ls, ∀ a ∈ l.place, low ≤ a.area.rank
  high : ∀ l ∈ ls, ∀ a ∈ l.place, a.area.rank < high

theorem Ordered.append {middle : Nat} {ms : List PlacedLine} (hls : Ordered low middle ls)
    (hms : Ordered middle high ms) (hlow : low ≤ middle) (hhigh : middle ≤ high) :
    Ordered low high (ls ++ ms) where
  sorted := by
    refine pairwise_append.mpr ⟨hls.sorted, hms.sorted, fun l hl m hm a ha b hb => ?_⟩
    have := hls.high l hl a ha
    have := hms.low m hm b hb
    exact .inl (.inl (by omega))
  low := by
    refine forall_mem_append.mpr ⟨hls.low, fun m hm a ha => ?_⟩
    exact Nat.le_trans hlow (hms.low m hm a ha)
  high := by
    refine forall_mem_append.mpr ⟨fun l hl a ha => ?_, hms.high⟩
    exact Nat.lt_of_lt_of_le (hls.high l hl a ha) hhigh

theorem Ordered.unplaced (n : Nat) (lines : List Line) : Ordered n n (unplaced lines) := by
  have hnone : ∀ l ∈ SketchCompiler.unplaced lines, l.place = none := by
    intro l hl
    obtain ⟨line, -, rfl⟩ := mem_map.mp hl
    rfl
  refine ⟨pairwise_of_forall_mem_list fun l hl m _ a ha => ?_, fun l hl a ha => ?_,
    fun l hl a ha => ?_⟩
  all_goals
    rw [hnone l hl] at ha
    cases ha

theorem mem_placeFrom (h : l ∈ placeFrom area index pieces) :
    ∃ k isFirst, l.place = some ⟨area, index + k, isFirst⟩ := by
  fun_induction placeFrom area index pieces with
  | case1 => cases h
  | case2 index rest ih =>
    obtain ⟨k, isFirst, hplace⟩ := ih h
    exact ⟨k + 1, isFirst, by rw [hplace, Nat.add_right_comm, Nat.add_assoc]⟩
  | case3 index first others rest ih =>
    rcases mem_append.mp h with h | h
    · rcases mem_cons.mp h with rfl | h
      · exact ⟨0, true, rfl⟩
      · obtain ⟨line, -, rfl⟩ := mem_map.mp h
        exact ⟨0, false, rfl⟩
    · obtain ⟨k, isFirst, hplace⟩ := ih h
      exact ⟨k + 1, isFirst, by rw [hplace, Nat.add_right_comm, Nat.add_assoc]⟩

theorem Ordered.placeFrom (area : Area) (index : Nat) (pieces : List (List Line)) :
    Ordered area.rank (area.rank + 1) (placeFrom area index pieces) := by
  refine ⟨?_, fun l hl a ha => ?_, fun l hl a ha => ?_⟩
  · fun_induction SketchCompiler.placeFrom area index pieces with
    | case1 => exact List.Pairwise.nil
    | case2 index rest ih => exact ih
    | case3 index first others rest ih =>
      refine pairwise_append.mpr ⟨pairwise_cons.mpr ⟨?_, ?_⟩, ih, ?_⟩
      · rintro m hm a ⟨⟩ b hb
        obtain ⟨line, -, rfl⟩ := mem_map.mp hm
        cases hb
        exact .inl (.inr ⟨rfl, .inr ⟨rfl, rfl, rfl⟩⟩)
      · refine pairwise_of_forall_mem_list ?_
        rintro l hl m hm a ha b hb
        obtain ⟨line, -, rfl⟩ := mem_map.mp hl
        obtain ⟨line', -, rfl⟩ := mem_map.mp hm
        cases ha
        cases hb
        exact .inr ⟨rfl, rfl⟩
      · intro l hl m hm a ha b hb
        obtain ⟨k, isFirst, hplace⟩ := mem_placeFrom hm
        rw [hplace] at hb
        cases hb
        have hindex : a.area = area ∧ a.index = index := by
          rcases mem_cons.mp hl with rfl | hl
          · cases ha
            exact ⟨rfl, rfl⟩
          · obtain ⟨line, -, rfl⟩ := mem_map.mp hl
            cases ha
            exact ⟨rfl, rfl⟩
        refine .inl (.inr ⟨hindex.1, .inl ?_⟩)
        rw [hindex.2]
        show index < index + 1 + k
        omega
  · obtain ⟨k, isFirst, hplace⟩ := mem_placeFrom hl
    rw [hplace] at ha
    cases ha
    exact Nat.le_refl _
  · obtain ⟨k, isFirst, hplace⟩ := mem_placeFrom hl
    rw [hplace] at ha
    cases ha
    exact Nat.lt_succ_self _

theorem Ordered.mono {low' high' : Nat} (h : Ordered low high ls) (hlow : low' ≤ low)
    (hhigh : high ≤ high') : Ordered low' high' ls :=
  ⟨h.sorted, fun l hl a ha => Nat.le_trans hlow (h.low l hl a ha),
    fun l hl a ha => Nat.lt_of_lt_of_le (h.high l hl a ha) hhigh⟩

theorem Ordered.placeBody (comment : String) (area : Area) (pieces : List (List Line)) :
    Ordered area.rank (area.rank + 1) (placeBody comment area pieces) := by
  unfold SketchCompiler.placeBody
  split
  · exact (Ordered.unplaced area.rank _).mono (Nat.le_refl _) (Nat.le_succ _)
  · exact .placeFrom area 0 _

theorem Ordered.next (hls : Ordered 0 n ls) (hms : Ordered n (n + 1) ms) :
    Ordered 0 (n + 1) (ls ++ ms) :=
  hls.append hms (Nat.zero_le n) (Nat.le_succ n)

theorem Ordered.gap (h : Ordered 0 n ls) : Ordered 0 n (ls ++ SketchCompiler.unplaced lines) :=
  h.append (.unplaced n lines) (Nat.zero_le n) (Nat.le_refl n)

theorem Program.placed_ordered {placed : List PlacedLine} (h : p.placed backend = .ok placed) :
    Ordered 0 5 placed := by
  obtain ⟨pieces, -, rfl⟩ := bind_ok h
  -- the last area first, with lines without a place behind each
  refine .gap (.next (.gap (.next ?_ (.placeBody "// setup" .setup _)))
    (.placeBody "// loop" .loop _))
  refine .gap (.next (.gap (.next (.gap ?_) (.placeFrom .globals 0 _)))
    (.placeFrom .functions 0 _))
  exact .next (.unplaced 0 _) (.placeFrom .structs 0 _)

section Between

variable {before after placed : List PlacedLine} {l m : PlacedLine} {a b : Place}

theorem before_of_mem (h : Ordered 0 5 (before ++ m :: after)) (hl : l ∈ before)
    (ha : l.place = some a) (hb : m.place = some b) (hfirst : a.isFirst = true) : a.Before b := by
  obtain ⟨-, -, hcross⟩ := pairwise_append.mp h.sorted
  rcases hcross l hl m mem_cons_self a ha b hb with hbefore | ⟨-, hother⟩
  · exact hbefore
  · rw [hfirst] at hother
    cases hother

theorem mem_of_before (h : Ordered 0 5 (before ++ m :: after)) (hl : l ∈ before ++ m :: after)
    (ha : l.place = some a) (hb : m.place = some b) (hbefore : a.Before b) : l ∈ before := by
  obtain ⟨-, hrest, -⟩ := pairwise_append.mp h.sorted
  rcases mem_append.mp hl with hl | hl
  · exact hl
  · exfalso
    rcases mem_cons.mp hl with rfl | hl
    · rw [Option.some.inj (ha.symm.trans hb)] at hbefore
      exact hbefore.irrefl
    · rcases (pairwise_cons.mp hrest).1 l hl b hb a ha with hafter | ⟨rfl, -⟩
      · exact hbefore.asymm hafter
      · exact hbefore.irrefl

end Between

-- ==== firsts

theorem mem_placeFrom_first (area : Area) :
    ∀ (index : Nat) (pieces : List (List Line)) (k : Nat),
      pieces[k]? = some (first :: others) →
      ⟨first, some ⟨area, index + k, true⟩⟩ ∈ placeFrom area index pieces
  | index, piece :: rest, 0, h => by
    rw [getElem?_cons_zero, Option.some.injEq] at h
    rw [h, placeFrom]
    exact mem_append_left _ mem_cons_self
  | index, piece :: rest, k + 1, h => by
    have ih := mem_placeFrom_first area (index + 1) rest k h
    rw [Nat.add_right_comm, Nat.add_assoc] at ih
    cases piece with
    | nil => exact ih
    | cons line lines => exact mem_append_right _ ih

theorem first_mem_placeFrom (area : Area) (h : pieces[k]? = some (first :: others)) :
    ⟨first, some ⟨area, k, true⟩⟩ ∈ placeFrom area 0 pieces := by
  have hmem := mem_placeFrom_first area 0 pieces k h
  rw [Nat.zero_add] at hmem
  exact hmem

/-- The lines of structs, variables and functions are in the sketch. -/
theorem Program.placed_areas {placed : List PlacedLine} (h : p.placed backend = .ok placed) :
    ∃ pieces, p.declarations.mapM (Sketch.ofDecl
        (Sketch.context backend p (p.declarations.length + 1))) = .ok pieces
      ∧ (∀ l ∈ placeFrom .structs 0 (p.declarations.map Sketch.structType), l ∈ placed)
      ∧ (∀ l ∈ placeFrom .globals 0 (pieces.map (·.globals)), l ∈ placed)
      ∧ ∀ l ∈ placeFrom .functions 0
          (pieces.map fun s => s.functions.flatMap (· ++ [⟨"", none⟩])), l ∈ placed := by
  obtain ⟨pieces, hpieces, rfl⟩ := bind_ok h
  refine ⟨pieces, hpieces, fun l hl => ?_, fun l hl => ?_, fun l hl => ?_⟩
  all_goals simp only [mem_append, hl, true_or, or_true]

end SketchCompiler
