/-
Written numbers: what a numeral denotes, and why a text is none.

Decimal digits of every script count as their value; a digit without
place value makes the text no number.  An integer of a base that is not
a power of two is limited to 4300 digits, in reading and in writing,
since both take time quadratic in their number.
-/
import SketchCompiler.Text.Digit
import SketchCompiler.Text.Blank
import SketchCompiler.Text.Quoted
import SketchCompiler.Decimal.Nearest

namespace SketchCompiler

open Text

/-- How an integer is written: its base given by a leading `0x` or `0b`
and ten else, or always ten. -/
inductive Radix where
  | marked
  | ten
  deriving DecidableEq, Repr

/-- Why a text denotes no number, or a number has no text. -/
inductive NumeralError where
  | notInteger (radix : Radix) (text : String)
  | notDecimal (text : String)
  | tooManyDigits (count : Nat)
  | tooLongToWrite
  deriving DecidableEq, Repr

/-- The largest number of decimal digits read or written. -/
def digitLimit : Nat := 4300

/-- The wording of a report.  A text that is no integer is shown with at
most two hundred characters. -/
def NumeralError.message : NumeralError → String
  | notInteger radix text =>
    "invalid literal for int() with base " ++ (match radix with | .marked => "0" | .ten => "10")
      ++ ": " ++ String.ofList ((quoted text).toList.take 200)
  | notDecimal text => "could not convert string to float: " ++ quoted text
  | tooManyDigits count =>
    s!"Exceeds the limit ({digitLimit} digits) for integer string conversion: value has {count} "
      ++ "digits; use sys.set_int_max_str_digits() to increase the limit"
  | tooLongToWrite =>
    s!"Exceeds the limit ({digitLimit} digits) for integer string conversion; use "
      ++ "sys.set_int_max_str_digits() to increase the limit"

namespace Numeral

-- ==== characters

/-- A character as a numeral sees it: a decimal digit of any script is
the ASCII digit of its value, a blank beyond ASCII a space, and any
other character beyond ASCII is out of place. -/
def plainChar (c : Char) : Char :=
  if isAscii c then c
  else match decimalValue? c with
    | some d => Char.ofNat ('0'.toNat + d)
    | none => if isBlank c then ' ' else '?'

/-- The blanks allowed around a numeral. -/
def isPadding (c : Char) : Bool :=
  c = ' ' || (0x9 ≤ c.toNat && c.toNat ≤ 0xD)

/-- The characters of a numeral, in ASCII and without the padding. -/
def plain (s : String) : List Char :=
  trimRightWhile isPadding ((s.toList.map plainChar).dropWhile isPadding)

/-- The value of a character as a digit. -/
def digitValue (c : Char) : Option Nat :=
  if '0' ≤ c ∧ c ≤ '9' then some (c.toNat - '0'.toNat)
  else if 'a' ≤ c ∧ c ≤ 'f' then some (c.toNat - 'a'.toNat + 10)
  else if 'A' ≤ c ∧ c ≤ 'F' then some (c.toNat - 'A'.toNat + 10)
  else none

/-- The digits at the start of a text, single underscores between them
left out, and what follows them.  `bar` tells that an underscore was
read last, which no text may end in. -/
def digitRun (base : Nat) (bar : Bool) : List Char → List Nat × Bool × List Char
  | [] => ([], bar, [])
  | c :: rest =>
    if c = '_' then
      if bar then ([], true, c :: rest) else digitRun base true rest
    else match digitValue c with
      | some d =>
        if d < base then
          let (ds, ends, tail) := digitRun base false rest
          (d :: ds, ends, tail)
        else ([], bar, c :: rest)
      | none => ([], bar, c :: rest)

/-- The number with the given digits. -/
def ofDigits (base : Nat) (digits : List Nat) : Nat :=
  digits.foldl (fun n d => n * base + d) 0

-- ==== integers

/-- The sign of a numeral and what follows it. -/
def sign : List Char → Bool × List Char
  | '-' :: rest => (true, rest)
  | '+' :: rest => (false, rest)
  | cs => (false, cs)

/-- The base of a marked numeral, whether only zero may follow, and the
text of the digits.  Behind a mark one underscore may stand; a number of
base ten that starts with zero is zero. -/
def baseOf : Radix → List Char → Nat × Bool × List Char
  | .marked, '0' :: c :: rest =>
    let digits := match rest with
      | '_' :: behind => behind
      | _ => rest
    if c = 'x' ∨ c = 'X' then (16, false, digits)
    else if c = 'b' ∨ c = 'B' then (2, false, digits)
    else if c = 'o' ∨ c = 'O' then (8, false, digits)
    else (10, true, '0' :: c :: rest)
  | _, cs => (10, false, cs)

/-- Reads an integer. -/
def readInt (radix : Radix) (s : String) : Except NumeralError Int :=
  let (negative, body) := sign (plain s)
  let (base, onlyZero, text) := baseOf radix body
  let (digits, bar, rest) := digitRun base false text
  if text.head? = some '_' then .error (.notInteger radix s)
  else if base = 10 ∧ digitLimit < digits.length then .error (.tooManyDigits digits.length)
  else if digits.isEmpty ∨ bar ∨ !rest.isEmpty then .error (.notInteger radix s)
  else
    let n := ofDigits base digits
    if onlyZero ∧ n ≠ 0 then .error (.notInteger radix s)
    else .ok (if negative then -(n : Int) else n)

/-- The text of an integer. -/
def writeInt (n : Int) : Except NumeralError String :=
  if digitLimit < Decimal.digitCount n.natAbs then .error .tooLongToWrite
  else .ok (toString n)

-- ==== decimals

/-- A run of decimal digits and what follows it; `none` for an
underscore that does not stand between two digits. -/
def decimalRun (cs : List Char) : Option (List Nat × List Char) :=
  match digitRun 10 true cs with
  | ([], _, rest) => if rest.head? = some '_' then none else some ([], rest)
  | (digits, bar, rest) => if bar then none else some (digits, rest)

/-- The exponent behind the digits of a decimal. -/
def exponent : List Char → Option Int
  | [] => some 0
  | c :: rest =>
    if c = 'e' ∨ c = 'E' then
      let (negative, body) := sign rest
      match decimalRun body with
      | some (d :: ds, []) =>
        let n := ofDigits 10 (d :: ds)
        some (if negative then -(n : Int) else n)
      | _ => none
    else none

/-- The magnitude that an unsigned decimal denotes. -/
def magnitude (cs : List Char) : Option Float := do
  let (whole, rest) ← decimalRun cs
  let (fraction, tail) ← match rest with
    | '.' :: behind => decimalRun behind
    | _ => some ([], rest)
  if whole.isEmpty && fraction.isEmpty then none
  let e ← exponent tail
  return Decimal.ofDecimal (ofDigits 10 (whole ++ fraction)) (e - fraction.length)

/-- Reads a decimal number: digits with a point and an exponent, an
infinity, or the word for no number. -/
def readFloat (s : String) : Except NumeralError Float :=
  let (negative, body) := sign (plain s)
  let word := String.ofList (body.map Char.toLower)
  let value? :=
    if word = "inf" ∨ word = "infinity" then some (1.0 / 0.0)
    else if word = "nan" then some (0.0 / 0.0)
    else magnitude body
  match value? with
  | some x => .ok (if negative then -x else x)
  | none => .error (.notDecimal s)

end Numeral

end SketchCompiler
