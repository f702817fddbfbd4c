/-
Code point ranges: how the character tables of this folder are written
down and searched.  A table lists disjoint closed ranges in ascending
order, so a code point is in the class when some range covers it.
-/

namespace SketchCompiler.Text

/-- A closed range of code points, first and last. -/
abbrev Range := Nat × Nat

/-- The ranges of a class of characters from a code point on, by the
lengths of the runs outside and inside of it in turn. -/
def ofRuns (first : Nat) : List Nat → List Range
  | outside :: inside :: runs =>
    (first + outside, first + outside + inside - 1) :: ofRuns (first + outside + inside) runs
  | _ => []

/-- The range covers the code point. -/
def Range.covers (r : Range) (code : Nat) : Bool :=
  r.1 ≤ code && code ≤ r.2

/-- The character lies in one of the ranges. -/
def inRanges (table : List Range) (c : Char) : Bool :=
  table.any (·.covers c.toNat)

/-- The character belongs to ASCII, where no table is consulted. -/
def isAscii (c : Char) : Bool :=
  c.toNat < 128

theorem inRanges_iff {table : List Range} {c : Char} :
    inRanges table c = true ↔ ∃ r ∈ table, r.1 ≤ c.toNat ∧ c.toNat ≤ r.2 := by
  simp [inRanges, Range.covers]

end SketchCompiler.Text
