/-
Letter case, as far as a comparison with an ASCII word can see it.  The
words that a text is compared with (type names, board names, tool
levels, bus kinds) are ASCII, so only the letters whose other case holds
an ASCII letter are changed; every other character maps to itself.
-/
import SketchCompiler.Text.Range

namespace SketchCompiler.Text

/-- The lower case of a character: one beyond ASCII maps into ASCII for
the dotted capital I and the Kelvin sign alone. -/
def lowerChar (c : Char) : List Char :=
  if isAscii c then [c.toLower]
  else match c.toNat with
    | 0x130 => ['i', Char.ofNat 0x307]
    | 0x212A => ['k']
    | _ => [c]

/-- The capitals beyond ASCII that hold an ASCII letter. -/
def upperTable : List (Nat × List Nat) :=
  [(0xDF, [0x53, 0x53]), (0x131, [0x49]), (0x149, [0x2BC, 0x4E]), (0x17F, [0x53]),
   (0x1F0, [0x4A, 0x30C]), (0x1E96, [0x48, 0x331]), (0x1E97, [0x54, 0x308]),
   (0x1E98, [0x57, 0x30A]), (0x1E99, [0x59, 0x30A]), (0x1E9A, [0x41, 0x2BE]),
   (0xFB00, [0x46, 0x46]), (0xFB01, [0x46, 0x49]), (0xFB02, [0x46, 0x4C]),
   (0xFB03, [0x46, 0x46, 0x49]), (0xFB04, [0x46, 0x46, 0x4C]), (0xFB05, [0x53, 0x54]),
   (0xFB06, [0x53, 0x54])]

/-- The upper case of a character. -/
def upperChar (c : Char) : List Char :=
  if isAscii c then [c.toUpper]
  else match upperTable.lookup c.toNat with
    | some codes => codes.map Char.ofNat
    | none => [c]

/-- The lower case of a text. -/
def lower (s : String) : String :=
  String.ofList (s.toList.flatMap lowerChar)

/-- The upper case of a text. -/
def upper (s : String) : String :=
  String.ofList (s.toList.flatMap upperChar)

end SketchCompiler.Text
