import Mathlib
import Anyonic.PhaseLattice
import Anyonic.Proofs.Scalar.Laws

/-!
# Exact errors

Errors are added up and compared.  What is said about them holds of all scalars whose sums and
whose order are those of exact numbers, and so of the real numbers, which are written with as many
decimal places as are asked for.
-/

namespace Anyonic

section Ordered

variable {α : Type} [OrderedScalar α]

theorem PhaseLattice.residualSize_nonneg (residual : α) : 0 ≤ residualSize residual := by
  unfold residualSize
  simp only
  split
  · exact OrderedScalar.zero_eq.ge
  · exact OrderedScalar.zero_le_abs residual

end Ordered

namespace Decimal

/-- A real number, rounded to the given number of decimal places. -/
noncomputable def realText (places : ℕ) (value : ℝ) : String :=
  let digits := round (value * 10 ^ places)
  (if digits < 0 then "-" else "") ++ withPoint places digits.natAbs

end Decimal

noncomputable instance Numeral.exact : Numeral ℝ where
  fixed := Decimal.realText
  scientific places value :=
    let exponent := Int.log 10 |value|
    Decimal.realText places (value / 10 ^ exponent) ++ "e" ++ toString exponent
  shortest value :=
    Decimal.realText (sInf { places | ∃ digits : ℤ, value * 10 ^ places = digits }) value

theorem checkTolerance_of_nonneg {tolerance : ℝ} (nonneg : 0 ≤ tolerance) :
    checkTolerance tolerance = .ok () := by
  have nonneg' : (0.0 : ℝ) ≤ tolerance := by norm_num; exact nonneg
  simp [checkTolerance, Scalar.isFinite, nonneg']

end Anyonic
