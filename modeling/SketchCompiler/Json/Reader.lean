/-
Reading JSON.  What is no JSON is refused with the reason and its place
in the text.  Beyond the standard, `NaN`, `Infinity` and `-Infinity` are
numbers; of two fields with one name the later value counts.
-/
import SketchCompiler.Json
import SketchCompiler.Numeral

namespace SketchCompiler.Json

/-- Why a text is no JSON. -/
inductive Issue where
  | value
  | propertyName
  | colon
  | comma
  | unterminated
  | control
  | escape
  | unicodeEscape
  | extraData
  | byteOrderMark
  deriving DecidableEq, Repr

/-- The wording of a reason. -/
def Issue.message : Issue → String
  | value => "Expecting value"
  | propertyName => "Expecting property name enclosed in double quotes"
  | colon => "Expecting ':' delimiter"
  | comma => "Expecting ',' delimiter"
  | unterminated => "Unterminated string starting at"
  | control => "Invalid control character at"
  | escape => "Invalid \\escape"
  | unicodeEscape => "Invalid \\uXXXX escape"
  | extraData => "Extra data"
  | byteOrderMark => "Unexpected UTF-8 BOM (decode using utf-8-sig)"

/-- Why a text has no value: it is no JSON, or one of its integers is too
long.  The place of an issue is given by the number of characters from
there on. -/
inductive Fault where
  | syntactic (issue : Issue) (left : Nat)
  | numeral (reason : NumeralError)
  deriving DecidableEq, Repr

/-- What reading a part of a text gives: the part and the rest. -/
abbrev Read (α : Type) := α × List Char

/-- The reason at the start of the given rest. -/
def refuse {α : Type} (issue : Issue) (rest : List Char) : Except Fault α :=
  .error (.syntactic issue rest.length)

/-- The blanks between the parts of JSON. -/
def isSpace (c : Char) : Bool :=
  c == ' ' || c == '\t' || c == '\n' || c == '\r'

/-- The text behind its blanks. -/
def skipSpace (cs : List Char) : List Char :=
  cs.dropWhile isSpace

-- ==== strings

/-- The code of a character that is written behind a backslash. -/
def simpleEscape : Char → Option Nat
  | '"' => some 0x22
  | '\\' => some 0x5C
  | '/' => some 0x2F
  | 'b' => some 0x8
  | 'f' => some 0xC
  | 'n' => some 0xA
  | 'r' => some 0xD
  | 't' => some 0x9
  | _ => none

/-- The number that four hexadecimal digits denote. -/
def hex4? (cs : List Char) : Option Nat :=
  match cs.take 4 |>.mapM Numeral.digitValue with
  | some digits => if digits.length = 4 then some (Numeral.ofDigits 16 digits) else none
  | none => none

/-- Reads the characters of a string up to its closing quote, as codes;
`skip` counts characters of an escape that are still to pass, `opened`
is the length of the text from the opening quote on, and `read` holds
the codes, last first. -/
def codesFrom (opened : Nat) (read : List Nat) : Nat → List Char → Except Fault (Read (List Nat))
  | _, [] => .error (.syntactic .unterminated opened)
  | skip + 1, _ :: rest => codesFrom opened read skip rest
  | 0, '"' :: rest => .ok (read.reverse, rest)
  | 0, '\\' :: rest =>
    match rest with
    | [] => .error (.syntactic .unterminated opened)
    | 'u' :: digits =>
      if digits.length < 5 then refuse .unicodeEscape rest
      else match hex4? digits with
        | some code => codesFrom opened (code :: read) 5 rest
        | none => refuse .unicodeEscape rest
    | c :: _ =>
      match simpleEscape c with
      | some code => codesFrom opened (code :: read) 1 rest
      | none => refuse .escape ('\\' :: rest)
  | 0, c :: rest =>
    if c.toNat < 0x20 then refuse .control (c :: rest)
    else codesFrom opened (c.toNat :: read) 0 rest

/-- Reads a string behind its opening quote. -/
def readString (cs : List Char) : Except Fault (Read Text.Points) := do
  let (codes, rest) ← codesFrom (cs.length + 1) [] 0 cs
  return (.ofCodes codes, rest)

-- ==== numbers

/-- The fraction at the start of a text: a point and at least one digit. -/
def fraction : List Char → List Char
  | '.' :: rest =>
    match rest.takeWhile Char.isDigit with
    | [] => []
    | digits => '.' :: digits
  | _ => []

/-- The exponent at the start of a text, which has at least one digit. -/
def exponentPart : List Char → List Char
  | e :: rest =>
    if e == 'e' || e == 'E' then
      let (mark, body) := match rest with
        | '+' :: body => (['+'], body)
        | '-' :: body => (['-'], body)
        | body => ([], body)
      match body.takeWhile Char.isDigit with
      | [] => []
      | digits => e :: mark ++ digits
    else []
  | [] => []

/-- The integer part at the start of a text, which is zero or does not
start with zero. -/
def wholePart : List Char → List Char
  | '0' :: _ => ['0']
  | cs => cs.takeWhile Char.isDigit

/-- Reads a number. -/
def readNumber (cs : List Char) : Except Fault (Read Json) :=
  let (mark, body) := match cs with
    | '-' :: body => (['-'], body)
    | body => ([], body)
  let whole := wholePart body
  if whole.isEmpty then refuse .value cs
  else
    let rest := body.drop whole.length
    let point := fraction rest
    let power := exponentPart (rest.drop point.length)
    let rest := rest.drop (point.length + power.length)
    if point.isEmpty && power.isEmpty then
      match Numeral.readInt .ten (String.ofList (mark ++ whole)) with
      | .ok n => .ok (.int n, rest)
      | .error reason => .error (.numeral reason)
    else
      match Numeral.readFloat (String.ofList (mark ++ whole ++ point ++ power)) with
      | .ok x => .ok (.float x, rest)
      | .error reason => .error (.numeral reason)

/-- The words that stand for a value. -/
def words : List (String × Json) :=
  [("null", .null), ("true", .bool true), ("false", .bool false), ("NaN", .float (0.0 / 0.0)),
   ("Infinity", .float (1.0 / 0.0)), ("-Infinity", .float (-1.0 / 0.0))]

/-- Reads a word or a number. -/
def readScalar (cs : List Char) : Except Fault (Read Json) :=
  match words.find? fun (word, _) => word.toList.isPrefixOf cs with
  | some (word, value) => .ok (value, cs.drop word.toList.length)
  | none => readNumber cs

-- ==== values

mutual

/-- Reads a value of bounded nesting. -/
def readValue : Nat → List Char → Except Fault (Read Json)
  | 0, cs => refuse .value cs
  | bound + 1, cs =>
    match cs with
    | '"' :: rest => do
      let (s, rest) ← readString rest
      return (.string s, rest)
    | '\x7b' :: rest =>
      match skipSpace rest with
      | '\x7d' :: rest => .ok (.object [], rest)
      | rest => readFields bound [] rest
    | '[' :: rest =>
      match skipSpace rest with
      | ']' :: rest => .ok (.array [], rest)
      | rest => readItems bound [] rest
    | _ => readScalar cs

/-- Reads the fields of an object up to its closing brace, behind those
already read. -/
def readFields : Nat → List (Text.Points × Json) → List Char → Except Fault (Read Json)
  | 0, _, cs => refuse .value cs
  | bound + 1, fields, cs =>
    match cs with
    | '"' :: rest => do
      let (key, rest) ← readString rest
      match skipSpace rest with
      | ':' :: rest => do
        let (value, rest) ← readValue bound (skipSpace rest)
        let fields := setField fields key value
        match skipSpace rest with
        | '\x7d' :: rest => .ok (.object fields, rest)
        | ',' :: rest => readFields bound fields (skipSpace rest)
        | rest => refuse .comma rest
      | rest => refuse .colon rest
    | _ => refuse .propertyName cs

/-- Reads the items of an array up to its closing bracket; those already
read are given last first. -/
def readItems : Nat → List Json → List Char → Except Fault (Read Json)
  | 0, _, cs => refuse .value cs
  | bound + 1, items, cs => do
    let (value, rest) ← readValue bound cs
    match skipSpace rest with
    | ']' :: rest => .ok (.array (value :: items).reverse, rest)
    | ',' :: rest => readItems bound (value :: items) (skipSpace rest)
    | rest => refuse .comma rest

end

/-- The value that a text denotes.  Every level of nesting takes a
character, so the bound is never met. -/
def readFrom (cs : List Char) : Except Fault Json := do
  if cs.head? = some '\ufeff' then refuse .byteOrderMark cs
  else
    let (value, rest) ← readValue (cs.length + 1) (skipSpace cs)
    let rest := skipSpace rest
    if rest.isEmpty then return value else refuse .extraData rest

/-- The value that a text denotes. -/
def read (text : String) : Except Fault Json :=
  readFrom text.toList

/-- The wording of a fault in a text: the reason with the line, the
column and the number of characters in front of it. -/
def Fault.message (text : String) : Fault → String
  | numeral reason => reason.message
  | syntactic issue left =>
    let position := text.toList.length - left
    let front := text.toList.take position
    let line := front.count '\n' + 1
    let column := (front.reverse.takeWhile (· != '\n')).length + 1
    issue.message ++ s!": line {line} column {column} (char {position})"

end SketchCompiler.Json
