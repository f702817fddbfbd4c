/-
Columns: texts brought to a width with spaces.  A text that is wider
stays as it is.
-/

namespace SketchCompiler.Text

/-- Spaces up to the width behind a text. -/
def padRight (width : Nat) (s : String) : String :=
  s ++ String.ofList (List.replicate (width - s.length) ' ')

/-- Spaces up to the width in front of a text. -/
def padLeft (width : Nat) (s : String) : String :=
  String.ofList (List.replicate (width - s.length) ' ') ++ s

end SketchCompiler.Text
