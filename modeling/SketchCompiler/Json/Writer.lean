/-
Writing JSON on one line: a space behind every comma and colon, and
every character beyond ASCII as an escape.
-/
import SketchCompiler.Json

namespace SketchCompiler.Json

/-- A code as an escape. -/
def escapedUnit (code : Nat) : List Char :=
  '\\' :: 'u' :: Text.hexPadded 4 code

/-- A character inside a string. -/
def writtenChar (c : Char) : List Char :=
  if c = '"' || c = '\\' then ['\\', c]
  else if c = '\n' then ['\\', 'n']
  else if c = '\r' then ['\\', 'r']
  else if c = '\t' then ['\\', 't']
  else if c = '\x08' then ['\\', 'b']
  else if c = '\x0c' then ['\\', 'f']
  else if 0x20 ≤ c.toNat ∧ c.toNat < 0x7F then [c]
  else if c.toNat = 0x7F then [c]
  else if c.toNat < 0x10000 then escapedUnit c.toNat
  else
    let rest := c.toNat - 0x10000
    escapedUnit (0xD800 + rest / 0x400) ++ escapedUnit (0xDC00 + rest % 0x400)

/-- A point inside a string. -/
def writtenPoint : Text.Point → List Char
  | .char c => writtenChar c
  | .half code => escapedUnit code

/-- A string in its quotes. -/
def writtenString (s : Text.Points) : String :=
  String.ofList ('"' :: s.flatMap writtenPoint ++ ['"'])

/-- The text of a decimal. -/
def writtenFloat (x : Float) : String :=
  if x.isNaN then "NaN"
  else if x.isInf then (if x < 0.0 then "-Infinity" else "Infinity")
  else Decimal.text x

mutual

/-- The text of a value. -/
def write : Json → String
  | null => "null"
  | bool b => if b then "true" else "false"
  | int n => toString n
  | float x => writtenFloat x
  | string s => writtenString s
  | array items => "[" ++ ", ".intercalate (writeItems items) ++ "]"
  | object fields => "\x7b" ++ ", ".intercalate (writeFields fields) ++ "\x7d"

/-- The texts of the items of an array. -/
def writeItems : List Json → List String
  | [] => []
  | item :: items => write item :: writeItems items

/-- The texts of the fields of an object. -/
def writeFields : List (Text.Points × Json) → List String
  | [] => []
  | (key, value) :: fields => (writtenString key ++ ": " ++ write value) :: writeFields fields

end

end SketchCompiler.Json
