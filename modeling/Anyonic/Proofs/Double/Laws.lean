import Anyonic.Proofs.Double.Integers
import Anyonic.Proofs.Double.Order
import Anyonic.Proofs.Scalar.Laws

/-!
# Doubles are lawful

The laws that are left to rounded numbers hold of doubles.  Signs do not matter to rounding, so
that a number cancels itself and two differences of opposite sign are of the same size; and an angle
that has been brought into one turn is far from being too large.
-/

namespace Anyonic

namespace Double

open Float.Model Float.Model.UnpackedFloat

theorem abs_round (sign : Sign) (mantissa : ℕ) (exponent : ℤ) :
    (UnpackedFloat.round .binary64 sign mantissa exponent).abs =
      UnpackedFloat.round .binary64 .positive mantissa exponent := by
  simp only [UnpackedFloat.round, roundWithAccuracy]
  split <;> rfl

theorem abs_normalize_neg (mantissa exponent : ℤ) (sign : Sign) :
    (UnpackedFloat.normalize .binary64 (-mantissa) exponent sign).abs =
      (UnpackedFloat.normalize .binary64 mantissa exponent sign).abs := by
  unfold UnpackedFloat.normalize
  rcases lt_trichotomy mantissa 0 with negative | rfl | positive
  · rw [Int.compare_eq_lt.2 negative, Int.compare_eq_gt.2 (by omega : -mantissa > 0)]
    simp only [abs_round]
  · rfl
  · rw [Int.compare_eq_gt.2 positive, Int.compare_eq_lt.2 (by omega : -mantissa < 0)]
    simp only [abs_round, neg_neg]

protected theorem abs_sub_comm (first second : Float) :
    (first - second).abs = (second - first).abs := by
  have same (first second : UnpackedFloat) :
      (first.sub .binary64 second).abs = (second.sub .binary64 first).abs := by
    cases first with
    | notANumber => cases second <;> rfl
    | infinity sign =>
        cases second with
        | infinity sign' => cases sign <;> cases sign' <;> rfl
        | _ => rfl
    | zero sign =>
        cases second with
        | zero sign' => cases sign <;> cases sign' <;> rfl
        | _ => rfl
    | finite sign mantissa exponent positive =>
        cases second with
        | finite sign' mantissa' exponent' positive' =>
            simp only [UnpackedFloat.sub]
            rw [min_comm, ← abs_normalize_neg, neg_sub]
        | _ => rfl
  change (ofParts ((parts first).sub .binary64 (parts second))).abs =
    (ofParts ((parts second).sub .binary64 (parts first))).abs
  rw [abs_ofParts, abs_ofParts, same]

/-- A number cancels itself. -/
protected theorem sub_self {number : Float} (finite : number.isFinite) : number - number = 0.0 := by
  have cancelled {unpacked : UnpackedFloat} (isNumber : IsNumber unpacked) :
      unpacked.sub .binary64 unpacked = .zero .positive := by
    cases isNumber with
    | zero sign => cases sign <;> rfl
    | finite canonical =>
        simp only [UnpackedFloat.sub]
        rw [sub_self]
        rfl
  change ofParts ((parts number).sub .binary64 (parts number)) = _
  rw [cancelled (isNumber_parts finite)]
  decide

/-- The integer parts of a full turn. -/
def turnParts : Binary64 := ⟨false, 7074237752028440, -50⟩

theorem ofFloat?_turn : Binary64.ofFloat? Scalar.turn = some turnParts := by
  decide +kernel

theorem abs_turnParts_le : |turnParts.value| ≤ 8 := by
  rw [Binary64.abs_value, turnParts]
  norm_num

theorem isFinite_turn : (Scalar.turn : Float).isFinite := by decide +kernel

theorem abs_turn : Scalar.abs (Scalar.turn : Float) = Scalar.turn := by decide +kernel

theorem abs_turn_le : |toReal Scalar.turn| ≤ 8 := by
  rw [Binary64.toReal_eq ofFloat?_turn isFinite_turn]
  exact abs_turnParts_le

theorem remainder_turn {angle : Float} (finite : angle.isFinite) :
    (remainder angle Scalar.turn).isFinite ∧ |toReal (remainder angle Scalar.turn)| ≤ 17 := by
  rcases Binary64.exists_ofFloat?_eq finite with ⟨split, split_eq, -⟩
  have nonzero : turnParts.significand ≠ 0 := by decide
  have small := (split.abs_value_remainder_lt nonzero).trans_le abs_turnParts_le
  rcases (split.remainder turnParts).isRounded_toFloat.rounds (by norm_num; linarith) with
    ⟨finite, rounds⟩
  rw [remainder, split_eq, ofFloat?_turn]
  refine ⟨finite, ?_⟩
  have := rounds.abs_le
  linarith

theorem residue_turn {angle : Float} (finite : angle.isFinite) :
    (Scalar.residue angle Scalar.turn).isFinite ∧
      |toReal (Scalar.residue angle Scalar.turn)| ≤ 51 := by
  rcases remainder_turn finite with ⟨finite, small⟩
  unfold Scalar.residue
  rw [abs_turn]
  change (remainder angle Scalar.turn).isFinite at finite
  generalize rest_eq : Scalar.remainder angle Scalar.turn = rest
  change remainder angle Scalar.turn = rest at rest_eq
  rw [rest_eq] at finite small
  simp only
  split
  · have sum := abs_add_le (toReal rest) (toReal Scalar.turn)
    have bound := abs_turn_le
    rcases (isRounded_add finite isFinite_turn).rounds (by norm_num; linarith) with
      ⟨finite, rounds⟩
    refine ⟨finite, ?_⟩
    have := rounds.abs_le
    linarith
  · exact ⟨finite, by linarith⟩

/-- Angles are numbers. -/
theorem isFinite_normalizeAngle (angle : Float) : (Scalar.normalizeAngle angle).isFinite := by
  unfold Scalar.normalizeAngle
  split
  · rename_i finite
    rcases residue_turn finite with ⟨finite, small⟩
    simp only
    split
    · have difference := abs_sub (toReal (Scalar.residue angle Scalar.turn)) (toReal Scalar.turn)
      have bound := abs_turn_le
      exact ((isRounded_sub finite isFinite_turn).rounds (by norm_num; linarith)).1
    · exact finite
  · decide +kernel

end Double

instance LawfulScalar.double : LawfulScalar Float where
  le_trans := by
    intro first second third le le'
    rw [Double.le_iff] at *
    exact ⟨⟨le.1.1, le'.1.2⟩, le.2.trans le'.2⟩
  lt_of_le_of_lt := by
    intro first second third le lt
    rw [Double.le_iff] at le
    rw [Double.lt_iff] at *
    exact ⟨⟨le.1.1, lt.1.2⟩, le.2.trans_lt lt.2⟩
  not_lt_of_le := by
    intro first second le lt
    exact (Double.le_iff.1 le).2.not_gt (Double.lt_iff.1 lt).2
  le_self_of_le := by
    intro first second le
    have defined := (Double.le_iff.1 le).1.2
    exact Double.le_iff.2 ⟨⟨defined, defined⟩, le_rfl⟩
  le_of_not_lt := by
    intro first second le le' notLess
    have defined := (Double.le_iff.1 le).1.1
    have defined' := (Double.le_iff.1 le').1.1
    refine Double.le_iff.2 ⟨⟨defined', defined⟩, ?_⟩
    by_contra less
    exact notLess (Double.lt_iff.2 ⟨⟨defined, defined'⟩, not_le.1 less⟩)
  zero_le_zero := by decide
  zero_add_zero := by decide
  zero_beq_zero := by decide
  neg_neg := Double.neg_neg
  isFinite_neg := Double.isFinite_neg
  isFinite_normalizeAngle := Double.isFinite_normalizeAngle
  sameAngle_self := by
    intro angle finite
    change decide ((angle - angle).abs < Gate.angleTolerance) = true
    rw [Double.sub_self finite]
    decide
  sameAngle_comm := by
    intro first second
    change decide ((first - second).abs < _) = decide ((second - first).abs < _)
    rw [Double.abs_sub_comm]

instance LinearScalar.double : LinearScalar Float where
  le_of_lt := by
    intro first second lt
    rcases Double.lt_iff.1 lt with ⟨defined, less⟩
    exact Double.le_iff.2 ⟨defined, less.le⟩

end Anyonic
