/-
The floating-point number nearest to a fraction.  The fraction is scaled
by a power of two until its integer part has the width of a mantissa,
rounded once with a half going to the even neighbour, and the pair is
packed into bits.
-/
import SketchCompiler.Decimal.Dyadic

namespace SketchCompiler.Decimal

/-- The fraction divided by `2 ^ q`. -/
def Ratio.shift (r : Ratio) (q : Int) : Ratio :=
  match q with
  | .ofNat k => { r with den := r.den * pow2 k }
  | .negSucc k => { r with num := r.num * pow2 (k + 1) }

/-- The exponent at which the integer part of a positive fraction has
the width of a mantissa, or the least exponent. -/
def mantissaExponent (r : Ratio) : Int :=
  let guess : Int := (r.num.log2 : Int) - r.den.log2 - mantissaBits
  let scaled := r.shift guess
  let q := if scaled.num / scaled.den < pow2 mantissaBits then guess - 1 else guess
  max leastExponent q

/-- The bits of `m · 2 ^ q`, for a mantissa of at most full width.  What
is too large becomes infinite. -/
def packBits (m : Nat) (q : Int) : Nat :=
  if m < pow2 mantissaBits then m
  else
    let biased := (q - leastExponent + 1).toNat
    if 2047 ≤ biased then 2047 * pow2 mantissaBits
    else biased * pow2 mantissaBits + (m - pow2 mantissaBits)

/-- The number nearest to a fraction. -/
def nearest (r : Ratio) : Float :=
  if r.num = 0 then 0.0
  else
    let q := mantissaExponent r
    let m := (r.shift q).roundEven
    let bits := if m = pow2 (mantissaBits + 1) then packBits (pow2 mantissaBits) (q + 1)
      else packBits m q
    Float.ofBits (UInt64.ofNat bits)

/-- The number nearest to `digits · 10 ^ e`.  Exponents beyond every
finite number are settled without computing the power. -/
def ofDecimal (digits : Nat) (e : Int) : Float :=
  if digits = 0 then 0.0
  else
    let lead := e + digitCount digits
    if 400 < lead then nearest { num := pow10 400, den := 1 }
    else if lead < -400 then 0.0
    else nearest (Ratio.scale { num := digits, den := 1 } e)

end SketchCompiler.Decimal
