/-!
# Scalars

Angles, amplitudes and errors are numbers of one type, and everything the compiler does with
numbers goes through the operations listed here.  The compiler runs on double-precision numbers;
the same definitions make sense over any other type with these operations, the real numbers in
particular, so a statement about circuits can be made in exact arithmetic.
-/

namespace Anyonic

/-- The operations the compiler needs of its numbers. -/
class Scalar (α : Type) extends Add α, Sub α, Mul α, Div α, Neg α, LT α, LE α, BEq α,
    OfScientific α where
  /-- The order is decidable. -/
  decidableLT : DecidableLT α
  /-- The weak order is decidable. -/
  decidableLE : DecidableLE α
  /-- The ratio of a circle's circumference to its diameter. -/
  pi : α
  /-- Absolute value. -/
  abs : α → α
  /-- Square root. -/
  sqrt : α → α
  /-- Sine of an angle in radians. -/
  sin : α → α
  /-- Cosine of an angle in radians. -/
  cos : α → α
  /-- The angle of the point with the given second and first coordinate, in that order. -/
  angleOf : α → α → α
  /-- The distance of the point with the given coordinates from the origin. -/
  hypot : α → α → α
  /-- The remainder of division with the quotient cut toward zero; it has the dividend's sign. -/
  remainder : α → α → α
  /-- The nearest integer; a half goes away from zero. -/
  nearest : α → Int
  /-- The number equal to an integer. -/
  ofInt : Int → α
  /-- Neither infinite nor undefined. -/
  isFinite : α → Bool

instance Scalar.instDecidableLT {α : Type} [Scalar α] : DecidableLT α := Scalar.decidableLT

instance Scalar.instDecidableLE {α : Type} [Scalar α] : DecidableLE α := Scalar.decidableLE

namespace Scalar

variable {α : Type} [Scalar α]

/-- A full turn. -/
def turn : α := 2.0 * pi

/-- The remainder in `[0, modulus)` of division by a positive modulus. -/
def residue (value modulus : α) : α :=
  let rest := remainder value modulus
  if rest < 0.0 then rest + abs modulus else rest

/--
The representative of an angle in `(-π, π]`.  A value that is not a finite number has no
direction and counts as the zero angle.
-/
def normalizeAngle (angle : α) : α :=
  if isFinite angle then
    let reduced := residue angle turn
    if pi < reduced then reduced - turn else reduced
  else 0.0

end Scalar

end Anyonic
