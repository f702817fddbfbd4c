/-
Texts that may hold half of a surrogate pair by itself, as an escape can
write one.  Such a text can be kept and compared, but not printed.
-/
import SketchCompiler.Text.Quoted

namespace SketchCompiler.Text

/-- A point of a text: a character, or half of a pair by itself. -/
inductive Point where
  | char (c : Char)
  | half (code : Nat)
  deriving DecidableEq, Repr

/-- A text that may hold halves. -/
abbrev Points := List Point

namespace Point

/-- The point of a code. -/
def ofCode (code : Nat) : Point :=
  if 0xD800 ≤ code ∧ code < 0xE000 then half code else char (.ofNat code)

/-- The point is a character that satisfies `p`. -/
def is (p : Char → Bool) : Point → Bool
  | char c => p c
  | half _ => false

/-- The character of a point, or the one that stands for a half. -/
def charOr (other : Char) : Point → Char
  | char c => c
  | half _ => other

/-- A point as it stands between quotes. -/
def quotedIn (quote : Char) : Point → List Char
  | char c => quoteChar quote c
  | half code => '\\' :: 'u' :: hexPadded 4 code

end Point

namespace Points

/-- The points of a text without halves. -/
def ofString (s : String) : Points :=
  s.toList.map .char

/-- The points of codes; the two halves of a pair make one character. -/
def ofCodes : List Nat → Points
  | [] => []
  | [code] => [.ofCode code]
  | high :: low :: rest =>
    if 0xD800 ≤ high ∧ high < 0xDC00 ∧ 0xDC00 ≤ low ∧ low < 0xE000 then
      .char (.ofNat (0x10000 + (high - 0xD800) * 0x400 + (low - 0xDC00))) :: ofCodes rest
    else .ofCode high :: ofCodes (low :: rest)

/-- The text with a mark in the place of every half. -/
def legible (ps : Points) : String :=
  String.ofList (ps.map (·.charOr '�'))

/-- The text in quotes. -/
def quoted (ps : Points) : String :=
  let quote := quoteFor (ps.map (·.charOr '�'))
  String.ofList (quote :: ps.flatMap (·.quotedIn quote) ++ [quote])

end Points

end SketchCompiler.Text
