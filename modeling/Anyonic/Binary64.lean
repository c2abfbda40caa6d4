/-!
# Double-precision numbers as integers times powers of two

A finite double is an integer below `2 ^ 53` times a power of two, with a sign.  Arithmetic that
has to be exact (remainders, decimal text) is done on these integers.
-/

namespace Anyonic

/-- A finite double: `significand * 2 ^ exponent`, negated when `negative` is set. -/
structure Binary64 where
  negative : Bool
  significand : Nat
  exponent : Int
deriving Repr, DecidableEq

namespace Binary64

/-- The natural powers of two. -/
def powerOfTwo (exponent : Nat) : Nat := Nat.pow 2 exponent

/-- The smallest exponent, that of the subnormal numbers. -/
def minExponent : Int := -1074

/-- The significand at which the spacing of the doubles doubles. -/
def leadingBit : Nat := powerOfTwo 52

/-- The parts of a finite double; infinities and undefined values have none. -/
def ofFloat? (value : Float) : Option Binary64 :=
  let bits := value.toBits.toNat
  let negative := bits / powerOfTwo 63 == 1
  let exponentField : Nat := bits / leadingBit % powerOfTwo 11
  let fraction := bits % leadingBit
  if exponentField == 2047 then none
  else if exponentField == 0 then some ⟨negative, fraction, minExponent⟩
  else some ⟨negative, leadingBit + fraction, minExponent + (exponentField - 1)⟩

/-- The double with these parts, rounded if the significand is too large to be one. -/
def toFloat (number : Binary64) : Float :=
  let sign := if number.negative then .negative else .positive
  .ofModel (.pack (.round .binary64 sign number.significand number.exponent))

/-- The magnitude as a fraction of natural numbers. -/
def fraction (number : Binary64) : Nat × Nat :=
  (number.significand * powerOfTwo number.exponent.toNat, powerOfTwo (-number.exponent).toNat)

/-- The nearest integer; a half goes away from zero. -/
def nearest (number : Binary64) : Int :=
  let (numerator, denominator) := number.fraction
  let magnitude := (2 * numerator + denominator) / (2 * denominator)
  if number.negative then -magnitude else magnitude

/--
The exact remainder of the magnitudes, with the sign of the dividend.  Both numbers are brought
to the smaller exponent, where the remainder is that of two natural numbers.
-/
def remainder (dividend divisor : Binary64) : Binary64 :=
  let exponent := min dividend.exponent divisor.exponent
  let scaled (number : Binary64) :=
    number.significand * powerOfTwo (number.exponent - exponent).toNat
  ⟨dividend.negative, scaled dividend % scaled divisor, exponent⟩

end Binary64

end Anyonic
