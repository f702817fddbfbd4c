/-
Access to the data that measuring tools leave behind.  A value of the
wrong shape is refused in the words of whoever asked for it: a missing
attribute, a number that is none, or a text that is no JSON.
-/
import SketchCompiler.Json.Reader
import SketchCompiler.Number

namespace SketchCompiler.Coverage

/-- Why data cannot be used. -/
inductive DataFault where
  | json (text : String) (fault : Json.Fault)
  | noAttribute (typeText name : String)
  | notNumber (reason : NumeralError)
  | noFloat (typeText : String)
  | noInteger (typeText : String)
  | noItems (typeText : String)
  | noPart (typeText : String)
  | noPartByName
  | tooLarge
  | infinite
  | notANumber
  | system (text : String)

/-- The kind of a fault in messages. -/
def DataFault.kind : DataFault → String
  | json _ (.syntactic _ _) => "JSONDecodeError"
  | json _ (.numeral _) => "ValueError"
  | noAttribute _ _ => "AttributeError"
  | notNumber _ => "ValueError"
  | noFloat _ | noInteger _ | noItems _ | noPart _ | noPartByName => "TypeError"
  | tooLarge | infinite => "OverflowError"
  | notANumber => "ValueError"
  | system _ => "OSError"

/-- The wording of a fault. -/
def DataFault.message : DataFault → String
  | json text fault => fault.message text
  | noAttribute typeText name => "'" ++ typeText ++ "' object has no attribute '" ++ name ++ "'"
  | notNumber reason => reason.message
  | noFloat typeText =>
    "float() argument must be a string or a real number, not '" ++ typeText ++ "'"
  | noInteger typeText =>
    "int() argument must be a string, a bytes-like object or a real number, not '"
      ++ typeText ++ "'"
  | noItems typeText => "'" ++ typeText ++ "' object is not iterable"
  | noPart typeText => "'" ++ typeText ++ "' object is not subscriptable"
  | noPartByName => "unhashable type: 'slice'"
  | tooLarge => "int too large to convert to float"
  | infinite => "cannot convert float infinity to integer"
  | notANumber => "cannot convert float NaN to integer"
  | system text => text

/-- The value of a JSON text. -/
def readJson (text : String) : Except DataFault Json :=
  (Json.read text).mapError (.json text)

/-- The field of an object, or the given value if there is none of the
name.  What is no object has no fields to ask for. -/
def fieldOr (absent : Json) (key : String) (j : Json) : Except DataFault Json :=
  match j with
  | .object fields => .ok ((fields.lookup (.ofString key)).getD absent)
  | other => .error (.noAttribute other.typeText "get")

/-- The field of an object; what is absent is null. -/
def field (key : String) (j : Json) : Except DataFault Json :=
  fieldOr .null key j

/-- The fields of an object, none if it is empty or absent. -/
def fieldsOf (j : Json) : Except DataFault (List (String × Json)) :=
  if !j.isPresent then .ok []
  else match j with
    | .object fields => .ok (fields.map fun (name, value) => (name.legible, value))
    | other => .error (.noAttribute other.typeText "items")

/-- The object itself, or an empty one in the place of what is absent. -/
def orEmpty (j : Json) : Json :=
  if j.isPresent then j else .object []

/-- The characters of a text, each a text of its own. -/
def charactersOf (s : Text.Points) : List Json :=
  s.map fun p => .string [p]

/-- What a value consists of, nothing if it is absent: the items of an
array, the characters of a text, the names of an object's fields. -/
def itemsOf (j : Json) : Except DataFault (List Json) :=
  if !j.isPresent then .ok []
  else match j with
    | .array items => .ok items
    | .string s => .ok (charactersOf s)
    | .object fields => .ok (fields.map fun (name, _) => .string name)
    | other => .error (.noItems other.typeText)

/-- The members of a value that has them by position, none if it is
absent.  An object has its members by name, so that no run of them can be
taken. -/
def sequenceOf (j : Json) : Except DataFault (List Json) :=
  if !j.isPresent then .ok []
  else match j with
    | .array items => .ok items
    | .string s => .ok (charactersOf s)
    | .object _ => .error .noPartByName
    | other => .error (.noPart other.typeText)

/-- The decimal that a value denotes. -/
def floatOf : Json → Except DataFault Float
  | .int n =>
    let x := Decimal.ofInt n
    if x.isInf then .error .tooLarge else .ok x
  | .float x => .ok x
  | .bool b => .ok (if b then 1.0 else 0.0)
  | .string s => (Numeral.readFloat s.legible).mapError .notNumber
  | other => .error (.noFloat other.typeText)

/-- The integer that a value denotes; a decimal loses its places. -/
def intOf : Json → Except DataFault Int
  | .int n => .ok n
  | .float x =>
    match Decimal.Dyadic.ofFloat x with
    | .finite negative m q => .ok (Decimal.truncate negative m q)
    | .infinite _ => .error .infinite
    | .nan => .error .notANumber
  | .bool b => .ok (if b then 1 else 0)
  | .string s => (Numeral.readInt .ten s.legible).mapError .notNumber
  | other => .error (.noInteger other.typeText)

/-- The integer in a field, zero if there is no such field. -/
def intField (key : String) (j : Json) : Except DataFault Int := do
  intOf (← fieldOr (.int 0) key j)

/-- The decimal in a field, zero if there is no such field. -/
def floatField (key : String) (j : Json) : Except DataFault Float := do
  floatOf (← fieldOr (.float 0.0) key j)

end SketchCompiler.Coverage
