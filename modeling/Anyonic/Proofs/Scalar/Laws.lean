import Anyonic.Proofs.Exact.Scalar

/-!
# Laws of scalars

What exact numbers and rounded numbers have in common, the real numbers and the doubles.  Rounded
numbers include values that are not numbers, and such a value compares with nothing, not even with
itself; a value that is at most itself is therefore one that can be compared.  Sums and products
are rounded, so that hardly any law of arithmetic is left; what remains is that numbers cancel
themselves and that signs do not matter to rounding.
-/

namespace Anyonic

/-- Scalars whose order, zero and angles behave like those of exact and of rounded numbers. -/
class LawfulScalar (α : Type) [Scalar α] : Prop where
  le_trans {first second third : α} : first ≤ second → second ≤ third → first ≤ third
  lt_of_le_of_lt {first second third : α} : first ≤ second → second < third → first < third
  not_lt_of_le {first second : α} : first ≤ second → ¬second < first
  /-- Only what can be compared is compared. -/
  le_self_of_le {first second : α} : first ≤ second → second ≤ second
  le_of_not_lt {first second : α} :
    first ≤ first → second ≤ second → ¬first < second → second ≤ first
  zero_le_zero : (0.0 : α) ≤ 0.0
  zero_add_zero : (0.0 : α) + 0.0 = 0.0
  zero_beq_zero : ((0.0 : α) == 0.0) = true
  neg_neg (angle : α) : - -angle = angle
  isFinite_neg {angle : α} : Scalar.isFinite angle → Scalar.isFinite (-angle)
  isFinite_normalizeAngle (angle : α) : Scalar.isFinite (Scalar.normalizeAngle angle)
  sameAngle_self {angle : α} : Scalar.isFinite angle → Gate.sameAngle angle angle
  sameAngle_comm (first second : α) : Gate.sameAngle first second = Gate.sameAngle second first

instance LawfulScalar.exact : LawfulScalar ℝ where
  le_trans := LE.le.trans
  lt_of_le_of_lt := LE.le.trans_lt
  not_lt_of_le := not_lt.2
  le_self_of_le := fun _ => le_rfl
  le_of_not_lt := fun _ _ => not_lt.1
  zero_le_zero := le_rfl
  zero_add_zero := by norm_num
  zero_beq_zero := decide_eq_true rfl
  neg_neg := InvolutiveNeg.neg_neg
  isFinite_neg := id
  isFinite_normalizeAngle := fun _ => rfl
  sameAngle_self := by
    intro angle _
    rw [Gate.sameAngle_iff, sub_self, abs_zero]
    norm_num
  sameAngle_comm := by
    intro first second
    rw [Bool.eq_iff_iff, Gate.sameAngle_iff, Gate.sameAngle_iff, abs_sub_comm]

/-- Lawful scalars whose strict order is part of their weak order. -/
class LinearScalar (α : Type) [Scalar α] : Prop extends LawfulScalar α where
  le_of_lt {first second : α} : first < second → first ≤ second

theorem LinearScalar.lt_of_lt_of_le {α : Type} [Scalar α] [LinearScalar α] {first second third : α}
    (comparable : first ≤ first) (lt : first < second) (le : second ≤ third) : first < third := by
  have comparable' := LawfulScalar.le_self_of_le le
  by_contra notLess
  have third_le := LawfulScalar.le_of_not_lt comparable comparable' notLess
  exact LawfulScalar.not_lt_of_le (LawfulScalar.le_trans le third_le) lt

instance LinearScalar.exact : LinearScalar ℝ where
  le_of_lt := LT.lt.le

/-- Scalars that are added up and ordered like exact numbers. -/
class OrderedScalar (α : Type) extends Scalar α, AddCommMonoid α, LinearOrder α,
    IsOrderedAddMonoid α where
  zero_eq : (0.0 : α) = 0
  beq_iff_eq {first second : α} : (first == second) = true ↔ first = second
  zero_le_abs (value : α) : 0 ≤ Scalar.abs value
  /-- Rounding noise has a size. -/
  zero_le_noise : 0 ≤ (1e-12 : α)

-- not an instance, so that the order of the real numbers is found where it always is
@[reducible] noncomputable def OrderedScalar.real : OrderedScalar ℝ where
  __ := Scalar.exact
  __ := (inferInstance : AddCommMonoid ℝ)
  __ := (inferInstance : LinearOrder ℝ)
  __ := (inferInstance : IsOrderedAddMonoid ℝ)
  zero_eq := by norm_num
  beq_iff_eq := decide_eq_true_iff
  zero_le_abs := abs_nonneg
  zero_le_noise := by norm_num

end Anyonic
