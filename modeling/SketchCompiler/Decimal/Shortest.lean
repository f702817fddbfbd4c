/-
The shortest decimal that reads back as the same number.  A floating
point number owns the interval of reals that round to it, its ends
included when the mantissa is even.  For one digit, two digits and so on
the two decimals next to the number on that grid are tried; the first
grid with a decimal inside the interval wins, the nearer of two, and the
even one of two equally near.  Seventeen digits always suffice.
-/
import SketchCompiler.Decimal.Dyadic

namespace SketchCompiler.Decimal

/-- A decimal `digits · 10 ^ exponent`. -/
structure Scientific where
  digits : Nat
  exponent : Int
  deriving DecidableEq, Repr

/-- The reals that round to a number. -/
structure Interval where
  value : Ratio
  low : Ratio
  high : Ratio
  closed : Bool

/-- The interval of `m · 2 ^ q`.  Below a power of two the neighbour is
half as far away. -/
def Interval.ofMantissa (m : Nat) (q : Int) : Interval :=
  let below := if m = pow2 mantissaBits ∧ leastExponent < q then 1 else 2
  { value := .ofDyadic (4 * m) (q - 2)
    low := .ofDyadic (4 * m - below) (q - 2)
    high := .ofDyadic (4 * m + 2) (q - 2)
    closed := m % 2 = 0 }

/-- The decimal `d · 10 ^ e` rounds to the number. -/
def Interval.holds (i : Interval) (d : Nat) (e : Int) : Bool :=
  let r := Ratio.scale { num := d, den := 1 } e
  if i.closed then i.low.le r && r.le i.high else i.low.lt r && r.lt i.high

/-- The `k` with `10 ^ (k - 1) ≤ r < 10 ^ k`, for a positive fraction. -/
def magnitude (r : Ratio) : Int :=
  if r.den ≤ r.num then digitCount (r.num / r.den)
  else
    let n := digitCount (r.den / r.num)
    if r.num * pow10 (n - 1) = r.den then 2 - (n : Int) else 1 - (n : Int)

/-- The decimal `d · 10 ^ e` for a `d` of at most `n` digits or the next
power of ten, which is written with one digit less. -/
def Scientific.ofGrid (n d : Nat) (e : Int) : Scientific :=
  if d = pow10 n then ⟨pow10 (n - 1), e + 1⟩ else ⟨d, e⟩

/-- The decimal with `n` digits that rounds to the number, if there is
one. -/
def Interval.withDigits (i : Interval) (n : Nat) : Option Scientific :=
  let e := magnitude i.value - n
  let scaled := i.value.scale (-e)
  let d := scaled.num / scaled.den
  match i.holds d e, i.holds (d + 1) e with
  | true, true => some (.ofGrid n scaled.roundEven e)
  | true, false => some (.ofGrid n d e)
  | false, true => some (.ofGrid n (d + 1) e)
  | false, false => none

/-- The shortest decimal of a positive number `m · 2 ^ q`. -/
def shortest (m : Nat) (q : Int) : Scientific :=
  let i := Interval.ofMantissa m q
  ((List.range 17).findSome? fun n => i.withDigits (n + 1)).getD ⟨0, 0⟩

-- ==== layout

/-- Digits with a point: positional notation of `digits · 10 ^ exponent`,
at least one digit on either side of the point. -/
def positional (s : Scientific) : List Char :=
  let ds := Nat.toDigits 10 s.digits
  match s.exponent with
  | .ofNat k => ds ++ List.replicate k '0' ++ ['.', '0']
  | .negSucc k =>
    let places := k + 1
    let padded := List.replicate (places + 1 - ds.length) '0' ++ ds
    padded.take (padded.length - places) ++ '.' :: padded.drop (padded.length - places)

/-- Exponent notation: one digit before the point, a sign and at least
two digits in the exponent. -/
def exponential (s : Scientific) : List Char :=
  let ds := Nat.toDigits 10 s.digits
  let e := s.exponent + ds.length - 1
  let mark := match e with
    | .ofNat k => '+' :: (if k < 10 then ['0'] else []) ++ Nat.toDigits 10 k
    | .negSucc k => '-' :: (if k + 1 < 10 then ['0'] else []) ++ Nat.toDigits 10 (k + 1)
  match ds with
  | [] => []
  | [d] => d :: 'e' :: mark
  | d :: rest => d :: '.' :: rest ++ 'e' :: mark

/-- Positional notation is used while the leading digit stands for
`10 ^ -4` up to `10 ^ 15`. -/
def isPositional (s : Scientific) : Bool :=
  let lead := s.exponent + digitCount s.digits - 1
  lead < 16 && -4 ≤ lead

/-- The text of a number: the shortest digits that read back as it. -/
def text (x : Float) : String :=
  match Dyadic.ofFloat x with
  | .nan => "nan"
  | .infinite negative => if negative then "-inf" else "inf"
  | .finite negative m q =>
    let s : Scientific := if m = 0 then ⟨0, 0⟩ else shortest m q
    let body := if isPositional s then positional s else exponential s
    String.ofList (if negative then '-' :: body else body)

end SketchCompiler.Decimal
