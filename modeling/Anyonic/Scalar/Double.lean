import Anyonic.Binary64
import Anyonic.Scalar

/-!
# Double-precision scalars

The instance on which the compiler runs.  Sums, products and the elementary functions are those
of the platform; the length of a vector and the remainder are defined here.
-/

namespace Anyonic

namespace Double

/-- A larger part above this size is scaled down before it is squared. -/
def large : Float := Float.scaleB 1 511

/-- A smaller part below this size is scaled up before it is squared. -/
def small : Float := Float.scaleB 1 (-459)

/--
By how much the square of `length` exceeds the sum of the squares of the two parts.  The
difference is expanded around the part that is nearer to `length`, where little cancels.
-/
def excess (length major minor : Float) : Float :=
  if length ≤ 2.0 * minor then
    let beyond := length - minor
    major * (2.0 * beyond - major) + (beyond - 2.0 * (major - minor)) * beyond
  else
    let beyond := length - major
    2.0 * beyond * (major - 2.0 * minor) + ((4.0 * beyond - minor) * minor + beyond * beyond)

/--
The length of a vector whose parts are neither too large nor too small to be squared.  The root
of the rounded sum is corrected once, which brings it to the nearest number but for rare cases.
-/
def correctedLength (major minor : Float) : Float :=
  let length := (major * major + minor * minor).sqrt
  length - excess length major minor / (2.0 * length)

/--
The length of a vector.  A part that is too small beside the other changes nothing; a power of two
is taken out of very large and very small parts; an infinite part makes the length infinite.
-/
def hypot (first second : Float) : Float :=
  let first := first.abs
  let second := second.abs
  if first.isInf || second.isInf then Float.scaleB 1 1024
  else
    let (major, minor) := if first < second then (second, first) else (first, second)
    let scaled (power : Int) :=
      Float.scaleB
        (correctedLength (Float.scaleB major power) (Float.scaleB minor power)) (-power)
    if minor ≤ Float.scaleB major (-54) then major + minor
    else if large < major then scaled (-600)
    else if minor < small then scaled 600
    else correctedLength major minor

/-- The exact remainder; it is undefined when either number is not finite. -/
def remainder (dividend divisor : Float) : Float :=
  match Binary64.ofFloat? dividend, Binary64.ofFloat? divisor with
  | some dividend, some divisor => (dividend.remainder divisor).toFloat
  | _, _ => 0.0 / 0.0

/-- The ends of the 64-bit range. -/
def lowest : Int := Int64.minValue.toInt

@[inherit_doc lowest] def highest : Int := Int64.maxValue.toInt

/-- The nearest integer, cut off at the ends of the 64-bit range; zero if undefined. -/
def nearest (value : Float) : Int :=
  match Binary64.ofFloat? value with
  | some number => max lowest (min highest number.nearest)
  | none => if value.isNaN then 0 else if value < 0.0 then lowest else highest

end Double

instance : Scalar Float where
  decidableLT := inferInstance
  decidableLE := inferInstance
  pi := 3.141592653589793
  abs := Float.abs
  sqrt := Float.sqrt
  sin := Float.sin
  cos := Float.cos
  angleOf := Float.atan2
  hypot := Double.hypot
  remainder := Double.remainder
  nearest := Double.nearest
  ofInt := Float.ofInt
  isFinite := Float.isFinite

end Anyonic
