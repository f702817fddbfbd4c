/-
JSON values, as tools print them.  Integers are unbounded and kept apart
from decimals, the fields of an object keep their order, the numbers may
be infinite or no number at all, and the texts may hold halves.
-/
import SketchCompiler.Decimal.Shortest
import SketchCompiler.Text.Points

namespace SketchCompiler

open Text (Points)

/-- A JSON value. -/
inductive Json where
  | null
  | bool (value : Bool)
  | int (value : Int)
  | float (value : Float)
  | string (value : Points)
  | array (items : List Json)
  | object (fields : List (Points × Json))

namespace Json

/-- A text as a value. -/
def ofString (s : String) : Json :=
  string (.ofString s)

/-- An object of fields without halves in their names. -/
def ofFields (fields : List (String × Json)) : Json :=
  object (fields.map fun (key, value) => (.ofString key, value))

/-- The value of a field of an object. -/
def get? (key : String) : Json → Option Json
  | object fields => fields.lookup (.ofString key)
  | _ => none

/-- The fields with one more; a field of the same name keeps its place
and takes the new value. -/
def setField (fields : List (Points × Json)) (key : Points) (value : Json) :
    List (Points × Json) :=
  if (fields.lookup key).isSome then
    fields.map fun (k, old) => (k, if k == key then value else old)
  else fields ++ [(key, value)]

/-- A value counts as present: it is not zero, not false, not null and
not empty. -/
def isPresent : Json → Bool
  | null => false
  | bool b => b
  | int n => n != 0
  | float x => x != 0.0
  | string s => !s.isEmpty
  | array items => !items.isEmpty
  | object fields => !fields.isEmpty

/-- The name of a value's type in messages. -/
def typeText : Json → String
  | null => "NoneType"
  | bool _ => "bool"
  | int _ => "int"
  | float _ => "float"
  | string _ => "str"
  | array _ => "list"
  | object _ => "dict"

mutual

/-- A value as it is shown inside another one. -/
def shown : Json → String
  | null => "None"
  | bool b => if b then "True" else "False"
  | int n => toString n
  | float x => Decimal.text x
  | string s => s.quoted
  | array items => "[" ++ ", ".intercalate (shownItems items) ++ "]"
  | object fields => "\x7b" ++ ", ".intercalate (shownFields fields) ++ "\x7d"

/-- The items of an array as they are shown. -/
def shownItems : List Json → List String
  | [] => []
  | item :: items => shown item :: shownItems items

/-- The fields of an object as they are shown. -/
def shownFields : List (Points × Json) → List String
  | [] => []
  | (key, value) :: fields => (key.quoted ++ ": " ++ shown value) :: shownFields fields

end

/-- A value as it is shown by itself: a string without its quotes. -/
def points : Json → Points
  | string s => s
  | value => .ofString value.shown

/-- A value by itself in characters. -/
def text (value : Json) : String :=
  value.points.legible

end Json

end SketchCompiler
