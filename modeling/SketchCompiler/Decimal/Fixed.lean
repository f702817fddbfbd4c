/-
Decimals with a fixed number of places.  The exact value is scaled and
rounded once, a half going to the even neighbour.
-/
import SketchCompiler.Decimal.Nearest

namespace SketchCompiler.Decimal

/-- `m · 2 ^ q` in units of `10 ^ -places`, rounded. -/
def fixedUnits (places m : Nat) (q : Int) : Nat :=
  ((Ratio.ofDyadic m q).scale places).roundEven

/-- The digits of `units · 10 ^ -places`. -/
def fixedDigits (places units : Nat) : List Char :=
  let ds := Nat.toDigits 10 units
  if places = 0 then ds
  else
    let padded := List.replicate (places + 1 - ds.length) '0' ++ ds
    padded.take (padded.length - places) ++ '.' :: padded.drop (padded.length - places)

/-- A number written with the given number of places. -/
def fixed (places : Nat) (x : Float) : String :=
  match Dyadic.ofFloat x with
  | .nan => "nan"
  | .infinite negative => if negative then "-inf" else "inf"
  | .finite negative m q =>
    let body := fixedDigits places (fixedUnits places m q)
    String.ofList (if negative then '-' :: body else body)

/-- The number nearest to the one with the given number of places. -/
def roundTo (places : Nat) (x : Float) : Float :=
  match Dyadic.ofFloat x with
  | .nan | .infinite _ => x
  | .finite negative m q =>
    let y := ofDecimal (fixedUnits places m q) (-places)
    if negative then -y else y

/-- The whole part of a finite number. -/
def truncate (negative : Bool) (m : Nat) (q : Int) : Int :=
  let r := Ratio.ofDyadic m q
  let n : Int := (r.num / r.den : Nat)
  if negative then -n else n

end SketchCompiler.Decimal
