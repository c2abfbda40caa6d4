import Anyonic.Binary64
import Anyonic.Decimal.Rounding

/-!
# The shortest decimal of a double

Every real number close enough to a double reads back as that double.  The shortest decimal is
the one with the fewest significant digits among those; of two with equally many digits the
nearer one is taken, and the larger one when both are equally near.
-/

namespace Anyonic.Decimal

/-- A decimal number `digits * 10 ^ power`. -/
structure Point where
  digits : Nat
  power : Int
deriving Repr, DecidableEq

namespace Point

/-- The value as a fraction. -/
def fraction (point : Point) : Nat × Nat := shift point.digits 1 point.power

/-- The same number without a zero as its last digit, if rounding up has brought one about. -/
def carried (point : Point) : Point :=
  if point.digits % 10 == 0 then ⟨point.digits / 10, point.power + 1⟩ else point

end Point

/--
The real numbers that read back as a positive double: between the midpoints to its neighbours,
which themselves belong to it when its significand is even.  All numbers are scaled by
`4 / 2 ^ exponent`, where the double is `4 * significand`.
-/
def readsBack (number : Binary64) (point : Point) : Bool :=
  let (numerator, denominator) := point.fraction
  let value := 4 * numerator * Binary64.powerOfTwo (-number.exponent).toNat
  let scale := denominator * Binary64.powerOfTwo number.exponent.toNat
  let below :=
    if number.significand == Binary64.leadingBit && number.exponent != Binary64.minExponent then 1
    else 2
  let lower := (4 * number.significand - below) * scale
  let upper := (4 * number.significand + 2) * scale
  if number.significand % 2 == 0 then lower ≤ value && value ≤ upper
  else lower < value && value < upper

/-- The better of the two grid points around a double that read back, on the grid of `power`. -/
def onGrid (number : Binary64) (power : Int) : Option Point :=
  let (numerator, denominator) := number.fraction
  let (scaled, unit) := shift numerator denominator (-power)
  let floor : Point := ⟨scaled / unit, power⟩
  let ceiling : Point := ⟨scaled / unit + 1, power⟩
  let ceilingIsNearer := unit ≤ 2 * (scaled % unit)
  match readsBack number floor, readsBack number ceiling with
  | true, true => some (if ceilingIsNearer then ceiling else floor)
  | true, false => some floor
  | false, true => some ceiling
  | false, false => none

/-- Seventeen significant digits always suffice. -/
def maxDigits : Nat := 17

/-- The shortest decimal that reads back as a positive double. -/
def shortest (number : Binary64) : Point :=
  let (numerator, denominator) := number.fraction
  let leading := leadingExponent numerator denominator
  let candidates := (List.range maxDigits).filterMap fun (extra : Nat) =>
    onGrid number (leading - extra)
  (candidates.headD ⟨numerator, 0⟩).carried

/-- A decimal in positional notation, without an exponent and without trailing zeros. -/
def Point.text (point : Point) : String :=
  withPoint (-point.power).toNat (point.digits * powerOfTen point.power.toNat)

end Anyonic.Decimal
