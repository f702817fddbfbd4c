/-
The exact value of a floating-point number.  A finite number is an
integer times a power of two; everything that is written about a number
in decimal is computed from that pair by integer arithmetic.
-/

namespace SketchCompiler.Decimal

/-- A power of two. -/
def pow2 (k : Nat) : Nat :=
  Nat.pow 2 k

/-- A power of ten. -/
def pow10 (k : Nat) : Nat :=
  Nat.pow 10 k

/-- A floating-point number read off its bits: `mantissa · 2 ^ exponent`,
an infinity, or no number. -/
inductive Dyadic where
  | finite (negative : Bool) (mantissa : Nat) (exponent : Int)
  | infinite (negative : Bool)
  | nan
  deriving DecidableEq, Repr

/-- Width of the stored mantissa. -/
def mantissaBits : Nat := 52

/-- The exponent of the smallest positive number. -/
def leastExponent : Int := -1074

/-- Reads the sign, the exponent and the mantissa of a number.  The
leading one of a normal mantissa is not stored. -/
def Dyadic.ofFloat (x : Float) : Dyadic :=
  let bits := x.toBits.toNat
  let negative := bits / pow2 63 = 1
  let biased := bits / pow2 mantissaBits % 2048
  let stored := bits % pow2 mantissaBits
  if biased = 2047 then
    if stored = 0 then .infinite negative else .nan
  else if biased = 0 then .finite negative stored leastExponent
  else .finite negative (stored + pow2 mantissaBits) (leastExponent + biased - 1)

/-- A nonnegative fraction. -/
structure Ratio where
  num : Nat
  den : Nat
  deriving DecidableEq, Repr

/-- `n · 2 ^ e` as a fraction. -/
def Ratio.ofDyadic (n : Nat) (e : Int) : Ratio :=
  match e with
  | .ofNat k => { num := n * pow2 k, den := 1 }
  | .negSucc k => { num := n, den := pow2 (k + 1) }

/-- The fraction times `10 ^ e`. -/
def Ratio.scale (r : Ratio) (e : Int) : Ratio :=
  match e with
  | .ofNat k => { r with num := r.num * pow10 k }
  | .negSucc k => { r with den := r.den * pow10 (k + 1) }

/-- The order of two fractions. -/
def Ratio.le (a b : Ratio) : Bool :=
  a.num * b.den ≤ b.num * a.den

/-- The strict order of two fractions. -/
def Ratio.lt (a b : Ratio) : Bool :=
  a.num * b.den < b.num * a.den

/-- The nearest integer to a fraction, a half going to the even one. -/
def Ratio.roundEven (r : Ratio) : Nat :=
  let q := r.num / r.den
  let twice := 2 * (r.num % r.den)
  if twice < r.den then q
  else if r.den < twice then q + 1
  else if q % 2 = 0 then q else q + 1

/-- The number of decimal digits of `n`, one for zero. -/
def digitCount (n : Nat) : Nat :=
  (Nat.toDigits 10 n).length

end SketchCompiler.Decimal
