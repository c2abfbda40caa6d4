import Anyonic.Scalar

/-!
# Amplitudes

Complex numbers in Cartesian form.  The order of the operations inside each formula is part of
its definition, because rounded arithmetic depends on it.
-/

namespace Anyonic

/-- A complex number. -/
structure Amplitude (α : Type) where
  re : α
  im : α
deriving BEq

namespace Amplitude

variable {α : Type} [Scalar α]

/-- The real number `value`. -/
@[inline] def ofReal (value : α) : Amplitude α := ⟨value, 0.0⟩

/-- Zero. -/
@[inline] def zero : Amplitude α := ofReal 0.0

/-- One. -/
@[inline] def one : Amplitude α := ofReal 1.0

/-- The number of the given modulus and angle. -/
@[inline] def polar (modulus angle : α) : Amplitude α :=
  ⟨modulus * Scalar.cos angle, modulus * Scalar.sin angle⟩

/-- The number of modulus one with the given angle. -/
@[inline] def phase (angle : α) : Amplitude α := polar 1.0 angle

/-- The complex conjugate. -/
@[inline] def conj (z : Amplitude α) : Amplitude α := ⟨z.re, -z.im⟩

/-- The modulus. -/
@[inline] def norm (z : Amplitude α) : α := Scalar.hypot z.re z.im

/-- The square of the modulus. -/
@[inline] def normSq (z : Amplitude α) : α := z.re * z.re + z.im * z.im

/-- The angle in `[-π, π]`. -/
@[inline] def arg (z : Amplitude α) : α := Scalar.angleOf z.im z.re

/-- Both parts divided by a real number. -/
@[inline] def divReal (z : Amplitude α) (divisor : α) : Amplitude α :=
  ⟨z.re / divisor, z.im / divisor⟩

instance : Add (Amplitude α) where
  add z w := ⟨z.re + w.re, z.im + w.im⟩

instance : Sub (Amplitude α) where
  sub z w := ⟨z.re - w.re, z.im - w.im⟩

instance : Neg (Amplitude α) where
  neg z := ⟨-z.re, -z.im⟩

instance : Mul (Amplitude α) where
  mul z w := ⟨z.re * w.re - z.im * w.im, z.re * w.im + z.im * w.re⟩

/-- The quotient is the product with the conjugate, divided by the square of the modulus. -/
instance : Div (Amplitude α) where
  div z w :=
    ⟨(z.re * w.re + z.im * w.im) / w.normSq, (z.im * w.re - z.re * w.im) / w.normSq⟩

end Amplitude

end Anyonic
