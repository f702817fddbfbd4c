/-
Looking for a word inside a text.
-/

namespace SketchCompiler.Text

/-- The word occurs in the text. -/
def occursIn (word : List Char) : List Char → Bool
  | [] => word.isEmpty
  | c :: cs => word.isPrefixOf (c :: cs) || occursIn word cs

/-- One of the words occurs in the text. -/
def anyOccurs (words : List String) (text : String) : Bool :=
  words.any fun word => occursIn word.toList text.toList

end SketchCompiler.Text
