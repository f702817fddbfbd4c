/-
Numbers that may be whole or not.  Whole numbers stay whole through
differences and rounding, and the text of a number shows which it is.
-/
import SketchCompiler.Decimal.Fixed
import SketchCompiler.Json
import SketchCompiler.Numeral

namespace SketchCompiler

/-- A whole number or a decimal. -/
inductive Number where
  | int (n : Int)
  | float (x : Float)

/-- The decimal nearest to an integer. -/
def Decimal.ofInt (n : Int) : Float :=
  let x := Decimal.ofDecimal n.natAbs 0
  if n < 0 then -x else x

namespace Number

/-- The number as a decimal. -/
def toFloat : Number → Float
  | int n => Decimal.ofInt n
  | float x => x

/-- The difference of two numbers. -/
def sub : Number → Number → Number
  | int a, int b => int (a - b)
  | a, b => float (a.toFloat - b.toFloat)

/-- The number rounded to a number of places. -/
def round (places : Nat) : Number → Number
  | int n => int n
  | float x => float (Decimal.roundTo places x)

/-- The number as a JSON value. -/
def toJson : Number → Json
  | int n => .int n
  | float x => .float x

/-- The text of a number. -/
def text (n : Number) : String :=
  n.toJson.text

/-- The number that a JSON value is. -/
def ofJson? : Json → Option Number
  | .int n => some (int n)
  | .float x => some (float x)
  | .bool b => some (int (if b then 1 else 0))
  | _ => none

end Number

end SketchCompiler
