/-!
# Decimal digits of a fraction

The value `numerator / denominator` of two natural numbers on a decimal grid, in exact
arithmetic: the nearest point of a grid, and the power of ten of the leading digit.
-/

namespace Anyonic.Decimal

/-- The natural number nearest to a quotient; a half goes to the even neighbour. -/
def roundDiv (numerator denominator : Nat) : Nat :=
  let quotient := numerator / denominator
  let rest := numerator % denominator
  if 2 * rest > denominator || (2 * rest == denominator && quotient % 2 == 1) then
    quotient + 1
  else quotient

/-- The natural powers of ten. -/
def powerOfTen (exponent : Nat) : Nat := Nat.pow 10 exponent

/-- The number of decimal digits of a natural number. -/
def digitCount (value : Nat) : Nat := (Nat.toDigits 10 value).length

/--
The power of ten of the leading digit of a positive fraction.  Below one it is fixed by the
number of digits of the largest natural number smaller than the inverse.
-/
def leadingExponent (numerator denominator : Nat) : Int :=
  if denominator ≤ numerator then digitCount (numerator / denominator) - 1
  else -digitCount ((denominator - 1) / numerator)

/-- The fraction multiplied by a power of ten. -/
def shift (numerator denominator : Nat) (power : Int) : Nat × Nat :=
  (numerator * powerOfTen power.toNat, denominator * powerOfTen (-power).toNat)

/-- The digits of a number, with zeros in front up to the given width. -/
def padded (width value : Nat) : String :=
  let digits := Nat.toDigits 10 value
  String.ofList (List.replicate (width - digits.length) '0' ++ digits)

/-- The text of `digits` with the given number of them behind the point. -/
def withPoint (places digits : Nat) : String :=
  if places == 0 then toString digits
  else
    toString (digits / powerOfTen places) ++ "." ++ padded places (digits % powerOfTen places)

end Anyonic.Decimal
