import Anyonic.Binary64
import Anyonic.Decimal.Rounding
import Anyonic.Decimal.Shortest

/-!
# Numbers as text

Messages and displays write numbers in three notations.  The text of a double is that of its
exact value: rounding goes to the nearest decimal, and a half to the even one.
-/

namespace Anyonic

/-- The three notations in which numbers are written. -/
class Numeral (α : Type) where
  /-- Positional, with the given number of digits behind the point. -/
  fixed : Nat → α → String
  /-- One digit, a point, the given number of further digits, and a power of ten. -/
  scientific : Nat → α → String
  /-- Positional, with the fewest digits that read back as the same number. -/
  shortest : α → String

namespace Binary64

/-- The magnitude in positional notation with a fixed number of places. -/
def fixedText (places : Nat) (number : Binary64) : String :=
  let (numerator, denominator) := number.fraction
  Decimal.withPoint places (Decimal.roundDiv (numerator * Decimal.powerOfTen places) denominator)

/-- The magnitude in scientific notation with a fixed number of places. -/
def scientificText (places : Nat) (number : Binary64) : String :=
  let (numerator, denominator) := number.fraction
  if numerator == 0 then Decimal.withPoint places 0 ++ "e0"
  else
    let leading := Decimal.leadingExponent numerator denominator
    let (scaled, unit) := Decimal.shift numerator denominator (places - leading)
    let digits := Decimal.roundDiv scaled unit
    if digits == Decimal.powerOfTen (places + 1) then
      Decimal.withPoint places (Decimal.powerOfTen places) ++ "e" ++ toString (leading + 1)
    else Decimal.withPoint places digits ++ "e" ++ toString leading

/-- The magnitude with the fewest digits. -/
def shortestText (number : Binary64) : String :=
  if number.significand == 0 then "0" else (Decimal.shortest number).text

/--
The text of a double: its sign in front of the text of its magnitude.  Zero keeps its sign, and
values that are not finite have texts of their own.
-/
def textOf (magnitude : Binary64 → String) (value : Float) : String :=
  match ofFloat? value with
  | some number => (if number.negative then "-" else "") ++ magnitude number
  | none => if value.isNaN then "NaN" else if value < 0 then "-inf" else "inf"

end Binary64

instance : Numeral Float where
  fixed places := Binary64.textOf (Binary64.fixedText places)
  scientific places := Binary64.textOf (Binary64.scientificText places)
  shortest := Binary64.textOf Binary64.shortestText

end Anyonic
