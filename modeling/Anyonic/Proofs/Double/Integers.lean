import Anyonic.Proofs.Double.Rounding

/-!
# Doubles as integers times powers of two

The integers and powers of two into which a double is split are its parts, so that both stand for
the same number.  Put together again, the number is rounded like any other.  A remainder is smaller
than the divisor, and the nearest integer is less than half a unit away.
-/

namespace Anyonic

open Float.Model Float.Model.UnpackedFloat

namespace Double

theorem toNat_unpackMantissa (number : Float) :
    (unpackMantissa (word number)).toNat = number.toBits.toNat % 2 ^ 52 := by
  simp only [unpackMantissa, BitVec.toNat_cast, BitVec.extractLsb_toNat, Nat.shiftRight_zero]
  rfl

theorem toNat_unpackExponent (number : Float) :
    (unpackExponent (word number)).toNat = number.toBits.toNat / 2 ^ 52 % 2 ^ 11 := by
  simp only [unpackExponent, BitVec.toNat_cast, BitVec.extractLsb_toNat, Nat.shiftRight_eq_div_pow]
  rfl

theorem unpackSign_ne_zero_iff (number : Float) :
    unpackSign (word number) ≠ 0#1 ↔ number.toBits.toNat / 2 ^ 63 = 1 := by
  have bound := number.toBits.toNat_lt
  have sign : (unpackSign (word number)).toNat = number.toBits.toNat / 2 ^ 63 % 2 := by
    simp only [unpackSign, BitVec.toNat_cast, BitVec.extractLsb_toNat, Nat.shiftRight_eq_div_pow]
    rfl
  rw [ne_eq, BitVec.toNat_eq, sign]
  change ¬_ = 0 ↔ _
  omega

end Double

namespace Binary64

/-- The number that integer parts stand for. -/
noncomputable def value (number : Binary64) : ℝ :=
  (if number.negative then -1 else 1) * (number.significand * (2 : ℕ) ^ number.exponent)

theorem value_eq (number : Binary64) :
    number.value = (if number.negative then -1 else 1) *
      (number.significand * 2 ^ number.exponent) := by
  rw [value, Nat.cast_ofNat]

theorem ofFloat?_eq (number : Float) :
    ofFloat? number =
      if unpackExponent (Double.word number) = -1#11 then none
      else if unpackExponent (Double.word number) = 0#11 then
        some ⟨unpackSign (Double.word number) ≠ 0#1, (unpackMantissa (Double.word number)).toNat,
          -1074⟩
      else
        some ⟨unpackSign (Double.word number) ≠ 0#1,
          2 ^ 52 + (unpackMantissa (Double.word number)).toNat,
          (unpackExponent (Double.word number)).toNat - 1075⟩ := by
  have exponent : (unpackExponent (Double.word number)).toNat =
      number.toBits.toNat / leadingBit % powerOfTwo 11 := Double.toNat_unpackExponent number
  have fraction : (unpackMantissa (Double.word number)).toNat = number.toBits.toNat % leadingBit :=
    Double.toNat_unpackMantissa number
  have negative : decide (unpackSign (Double.word number) ≠ 0#1) =
      (number.toBits.toNat / powerOfTwo 63 == 1) :=
    decide_eq_decide.2 (Double.unpackSign_ne_zero_iff number)
  simp only [ofFloat?, ← exponent, ← fraction, ← negative, beq_iff_eq]
  refine if_congr ?_ rfl (if_congr ?_ rfl ?_)
  · exact BitVec.toNat_inj (y := -1#11)
  · exact BitVec.toNat_inj (y := 0#11)
  · rw [minExponent, show (-1074 : ℤ) + ((unpackExponent (Double.word number)).toNat - 1) =
      (unpackExponent (Double.word number)).toNat - 1075 by omega]
    rfl

theorem exists_ofFloat?_eq {number : Float} (finite : number.isFinite) :
    ∃ split, ofFloat? number = some split ∧ split.value = Double.toReal number := by
  have negative : (if decide (unpackSign (Double.word number) ≠ 0#1) = true then (-1 : ℝ) else 1) =
      Double.factor (Sign.ofBitVec (unpackSign (Double.word number))) := by
    unfold Sign.ofBitVec
    by_cases zero : unpackSign (Double.word number) = 0#1 <;> simp [zero, Double.factor]
  change (Double.parts number).isFinite at finite
  rw [ofFloat?_eq, Double.toReal]
  rw [Double.parts_eq, Double.ofFields] at *
  split at finite
  · split at finite <;> cases finite
  · rename_i special
    rw [if_neg special, if_neg special]
    split
    · refine ⟨_, rfl, ?_⟩
      rw [value, negative]
      split
      · rename_i zero
        simp [zero, Double.value]
      · rfl
    · refine ⟨_, rfl, ?_⟩
      rw [value, negative]
      rfl

theorem toReal_eq {number : Float} {split : Binary64} (split_eq : ofFloat? number = some split)
    (finite : number.isFinite) : Double.toReal number = split.value := by
  rcases exists_ofFloat?_eq finite with ⟨other, other_eq, value_eq⟩
  rw [split_eq] at other_eq
  cases other_eq
  exact value_eq.symm

theorem isRounded_toFloat (number : Binary64) :
    Double.IsRounded number.value number.toFloat := by
  have rounded := Double.isRounded_round (if number.negative then .negative else .positive)
    number.significand number.exponent
  have sign : Double.factor (if number.negative then .negative else .positive) =
      if number.negative then -1 else 1 := by
    cases number.negative <;> rfl
  rw [sign] at rounded
  rwa [value_eq]

theorem abs_value (number : Binary64) :
    |number.value| = number.significand * 2 ^ number.exponent := by
  have sign : |(if number.negative then -1 else 1 : ℝ)| = 1 := by
    cases number.negative <;> simp
  rw [value_eq, abs_mul, sign, one_mul, abs_of_nonneg (by positivity)]

/-- A remainder is smaller than the divisor. -/
theorem abs_value_remainder_lt (dividend : Binary64) {divisor : Binary64}
    (nonzero : divisor.significand ≠ 0) :
    |(dividend.remainder divisor).value| < |divisor.value| := by
  rw [abs_value, abs_value]
  simp only [remainder, powerOfTwo, Nat.pow_eq]
  generalize exponent_eq : min dividend.exponent divisor.exponent = exponent
  have scale : (2 : ℝ) ^ divisor.exponent =
      2 ^ (divisor.exponent - exponent).toNat * 2 ^ exponent := by
    rw [← zpow_natCast, ← zpow_add₀ two_ne_zero]
    congr 1
    omega
  rw [scale, ← mul_assoc]
  apply mul_lt_mul_of_pos_right _ (by positivity)
  have pos : 0 < divisor.significand * 2 ^ (divisor.exponent - exponent).toNat := by positivity
  exact_mod_cast Nat.mod_lt _ pos

theorem fraction_eq (number : Binary64) :
    0 < number.fraction.2 ∧ |number.value| = number.fraction.1 / number.fraction.2 := by
  constructor
  · simp only [fraction, powerOfTwo, Nat.pow_eq]
    positivity
  · rw [abs_value]
    simp only [fraction, powerOfTwo, Nat.pow_eq]
    push_cast
    rw [mul_div_assoc, ← zpow_natCast, ← zpow_natCast, ← zpow_sub₀ two_ne_zero]
    congr 2
    omega

/-- A half more, without its fraction, is the nearest integer. -/
theorem div_add_half_eq {numerator denominator : ℕ} (positive : 0 < denominator) {count : ℤ}
    (near : |(numerator / denominator : ℝ) - count| < 1 / 2) :
    ((2 * numerator + denominator) / (2 * denominator) : ℕ) = count := by
  have pos : (0 : ℝ) < denominator := by exact_mod_cast positive
  rcases abs_lt.1 near with ⟨above, below⟩
  have nonneg : (0 : ℝ) ≤ numerator / denominator := by positivity
  have whole : 0 ≤ count := by
    by_contra negative
    have : (count : ℝ) ≤ -1 := by exact_mod_cast (by omega : count ≤ -1)
    linarith
  lift count to ℕ using whole
  rw [lt_sub_iff_add_lt, lt_div_iff₀ pos] at above
  rw [sub_lt_iff_lt_add, div_lt_iff₀ pos] at below
  have lower : (count * (2 * denominator) : ℝ) ≤ 2 * numerator + denominator := by
    push_cast at above
    linarith
  have upper : (2 * numerator + denominator : ℝ) < (count + 1) * (2 * denominator) := by
    push_cast at below
    linarith
  congr 1
  apply Nat.div_eq_of_lt_le
  · exact_mod_cast lower
  · exact_mod_cast upper

theorem nearest_eq {number : Binary64} {count : ℤ} (near : |number.value - count| < 1 / 2) :
    number.nearest = count := by
  rcases number.fraction_eq with ⟨positive, size⟩
  simp only [nearest]
  have signed : number.value = (if number.negative then -1 else 1) * |number.value| := by
    rw [abs_value]
    rfl
  rw [signed, size] at near
  split
  · rename_i negative
    rw [if_pos negative, neg_one_mul, ← abs_neg, neg_sub, sub_neg_eq_add, add_comm,
      ← sub_neg_eq_add, ← Int.cast_neg] at near
    exact neg_eq_iff_eq_neg.2 (div_add_half_eq positive near)
  · rename_i negative
    rw [if_neg negative, one_mul] at near
    exact div_add_half_eq positive near

end Binary64

theorem Double.nearest_eq {number : Float} (finite : number.isFinite) {count : ℤ}
    (low : lowest ≤ count) (high : count ≤ highest) (near : |toReal number - count| < 1 / 2) :
    nearest number = count := by
  rcases Binary64.exists_ofFloat?_eq finite with ⟨split, split_eq, value_eq⟩
  rw [nearest, split_eq]
  rw [← value_eq] at near
  simp only [Binary64.nearest_eq near]
  omega

end Anyonic
