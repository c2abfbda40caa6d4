import Anyonic.Proofs.Double.Parts
import Anyonic.Proofs.Exact.Scalar

/-!
# Rounding

Sums and quotients of doubles are computed exactly and then rounded: the mantissa is brought to its
full length, and what does not fit is rounded down or up.  The result is therefore less than one
unit of the last place away from the exact number, and the error is small beside that number.
-/

namespace Anyonic.Double

open Float.Model Float.Model.UnpackedFloat

/-- A sign as a factor. -/
def factor : Sign → ℝ
  | .negative => -1
  | .positive => 1

theorem abs_factor (sign : Sign) : |factor sign| = 1 := by
  cases sign <;> simp [factor]

theorem factor_neg (sign : Sign) : factor (-sign) = -factor sign := by
  cases sign with
  | negative => exact (neg_neg 1).symm
  | positive => rfl

theorem factor_div (sign sign' : Sign) : factor (sign / sign') = factor sign / factor sign' := by
  cases sign <;> cases sign'
  · exact (by norm_num : (1 : ℝ) = -1 / -1)
  · exact (div_one (-1)).symm
  · exact (by norm_num : (-1 : ℝ) = 1 / -1)
  · exact (div_one 1).symm

/-- The number that finite parts stand for. -/
noncomputable def value : UnpackedFloat → ℝ
  | .finite sign mantissa exponent _ => factor sign * (mantissa * (2 : ℕ) ^ exponent)
  | _ => 0

theorem value_finite (sign : Sign) {mantissa : ℕ} (positive : 0 < mantissa) (exponent : ℤ) :
    value (.finite sign mantissa exponent positive) = factor sign * (mantissa * 2 ^ exponent) := by
  rw [value, Nat.cast_ofNat]

/--
A number is rounded by less than the power of two at which its mantissa is as long as it can be.
-/
structure Rounds (exact rounded : ℝ) : Prop where
  exists_exponent : ∃ exponent : ℤ, (2 ^ 52 * 2 ^ exponent ≤ |exact| ∨ exponent = -1074) ∧
    |rounded - exact| < 2 ^ exponent

namespace Rounds

variable {exact rounded : ℝ}

theorem abs_sub_le (rounds : Rounds exact rounded) :
    |rounded - exact| ≤ (|exact| + 1) / 2 ^ 52 := by
  rcases rounds with ⟨exponent, long, near⟩
  refine near.le.trans ?_
  rw [le_div_iff₀ (by positivity), mul_comm]
  rcases long with long | rfl
  · linarith
  · have tiny : (2 : ℝ) ^ 52 * 2 ^ (-1074 : ℤ) ≤ 1 := by
      rw [← zpow_natCast, ← zpow_add₀ two_ne_zero]
      exact zpow_le_one_of_nonpos₀ one_le_two (by norm_num)
    have := abs_nonneg exact
    linarith

theorem abs_le (rounds : Rounds exact rounded) : |rounded| ≤ 2 * |exact| + 1 := by
  have near := rounds.abs_sub_le
  have apart := abs_sub_abs_le_abs_sub rounded exact
  have := abs_nonneg exact
  linarith

end Rounds

theorem mantissa_shiftRight (extended : ExtendedMantissa) (shift : ℕ) :
    (extended >>> shift).mantissa = extended.mantissa / 2 ^ shift := by
  change (shift.repeat ExtendedMantissa.shiftRightOne extended).mantissa = _
  induction shift with
  | zero => rw [Nat.repeat, pow_zero, Nat.div_one]
  | succ shift ih =>
      rw [Nat.repeat, ExtendedMantissa.shiftRightOne, ih, Nat.div_div_eq_div_mul, pow_succ]

theorem shiftRight_exact (mantissa shift : ℕ) :
    ExtendedMantissa.ofMantissaAndAccuracy (mantissa * 2 ^ shift) .exact >>> shift =
      .ofMantissaAndAccuracy mantissa .exact := by
  change shift.repeat ExtendedMantissa.shiftRightOne _ = _
  induction shift generalizing mantissa with
  | zero => rw [Nat.repeat, pow_zero, mul_one]
  | succ shift ih =>
      rw [Nat.repeat, pow_succ', ← mul_assoc, ih]
      simp [ExtendedMantissa.shiftRightOne, ExtendedMantissa.ofMantissaAndAccuracy]

theorem mantissa_ofMantissaAndAccuracy (mantissa : ℕ) (accuracy : Accuracy) :
    (ExtendedMantissa.ofMantissaAndAccuracy mantissa accuracy).mantissa = mantissa := by
  rcases accuracy with _ | _ | _ | _ <;> rfl

theorem roundedMantissa_mem (extended : ExtendedMantissa) :
    extended.roundedMantissa = extended.mantissa ∨
      extended.roundedMantissa = extended.mantissa + 1 := by
  rcases extended with ⟨mantissa, _ | _, _ | _⟩
  · exact .inl rfl
  · exact .inl rfl
  · change mantissa + mantissa % 2 = mantissa ∨ mantissa + mantissa % 2 = mantissa + 1
    omega
  · exact .inr rfl

/-- A mantissa without its last bits, rounded. -/
def roundedShift (mantissa : ℕ) (accuracy : Accuracy) (shift : ℕ) : ℕ :=
  (ExtendedMantissa.ofMantissaAndAccuracy mantissa accuracy >>> shift).roundedMantissa

theorem roundedShift_mem (mantissa : ℕ) (accuracy : Accuracy) (shift : ℕ) :
    roundedShift mantissa accuracy shift = mantissa / 2 ^ shift ∨
      roundedShift mantissa accuracy shift = mantissa / 2 ^ shift + 1 := by
  have rounded := roundedMantissa_mem
    (ExtendedMantissa.ofMantissaAndAccuracy mantissa accuracy >>> shift)
  rwa [mantissa_shiftRight, mantissa_ofMantissaAndAccuracy] at rounded

theorem roundedShift_exact (mantissa shift : ℕ) :
    roundedShift (mantissa * 2 ^ shift) .exact shift = mantissa := by
  rw [roundedShift, shiftRight_exact]
  rfl

theorem targetExponent_eq (exponent : ℤ) :
    Format.binary64.targetExponent exponent = max (exponent - 53) (-1074) := rfl

/-- What is left of a mantissa and an exponent when the mantissa is rounded to a multiple of a
power of two; the mantissa may have become one bit too long. -/
def ofCount (sign : Sign) (count : ℕ) (exponent : ℤ) : UnpackedFloat :=
  if zero : count = 0 then .zero sign
  else if count = 2 ^ 53 then .finite sign (2 ^ 52) (exponent + 1) (by decide)
  else .finite sign count exponent (Nat.pos_of_ne_zero zero)

/-- A second shift only takes back a carry. -/
theorem roundWithAccuracy_of_shiftToTargetExponent {sign : Sign} {mantissa : ℕ} {exponent : ℤ}
    {accuracy : Accuracy} {extended : ExtendedMantissa} {target : ℤ}
    (shifted : shiftToTargetExponent .binary64 mantissa exponent accuracy = (extended, target))
    (short : extended.roundedMantissa ≤ 2 ^ 53) (lowest : -1074 ≤ target) :
    roundWithAccuracy .binary64 sign mantissa exponent accuracy =
      ofCount sign extended.roundedMantissa target := by
  rw [roundWithAccuracy, shifted]
  simp only [shiftToTargetExponent, shiftToExponent, targetExponent_eq, totalExponent]
  generalize extended.roundedMantissa = count at short
  unfold ofCount
  by_cases carried : count = 2 ^ 53
  · subst carried
    have shift : (max (((2 ^ 53).log2 : ℤ) + 1 + target - 53) (-1074) - target).toNat = 1 := by
      rw [Nat.log2_two_pow]
      omega
    simp only [shift]
    rfl
  · have length : count.log2 < 53 := by
      by_cases zero : count = 0
      · rw [zero]
        decide
      · exact (Nat.log2_lt zero).2 (by omega)
    have shift : (max ((count.log2 : ℤ) + 1 + target - 53) (-1074) - target).toNat = 0 := by
      omega
    simp only [shift, carried, if_false]
    change (if zero : count = 0 then _ else UnpackedFloat.finite sign count (target + 0) _) = _
    simp only [add_zero]

theorem roundWithAccuracy_eq_ofCount (sign : Sign) {mantissa : ℕ} {exponent target : ℤ}
    (target_eq : max (mantissa.log2 + 1 + exponent - 53) (-1074) = target)
    (le : exponent ≤ target) (accuracy : Accuracy) :
    roundedShift mantissa accuracy (target - exponent).toNat ≤ 2 ^ 53 ∧
      roundWithAccuracy .binary64 sign mantissa exponent accuracy =
        ofCount sign (roundedShift mantissa accuracy (target - exponent).toNat) target := by
  have short : roundedShift mantissa accuracy (target - exponent).toNat ≤ 2 ^ 53 := by
    have bound : mantissa / 2 ^ (target - exponent).toNat < 2 ^ 53 := by
      rw [Nat.div_lt_iff_lt_mul (by positivity), ← pow_add]
      refine Nat.lt_log2_self.trans_le (Nat.pow_le_pow_right two_pos ?_)
      omega
    rcases roundedShift_mem mantissa accuracy (target - exponent).toNat with same | next <;> omega
  refine ⟨short, roundWithAccuracy_of_shiftToTargetExponent ?_ short (by omega)⟩
  simp only [shiftToTargetExponent, shiftToExponent, targetExponent_eq, totalExponent, target_eq]
  exact Prod.ext rfl (by simp only; omega)

theorem value_ofCount (sign : Sign) (count : ℕ) (exponent : ℤ) :
    value (ofCount sign count exponent) = factor sign * (count * 2 ^ exponent) := by
  unfold ofCount
  split
  · rename_i zero
    simp [value, zero]
  · split
    · rename_i carried
      rw [value_finite, carried, zpow_add_one₀ two_ne_zero]
      push_cast
      ring
    · exact value_finite _ _ _

theorem parts_ofParts_of_overflow (sign : Sign) {mantissa : ℕ} (positive : 0 < mantissa)
    {exponent : ℤ} (large : 972 ≤ exponent) :
    parts (ofParts (.finite sign mantissa exponent positive)) = .infinity sign := by
  change UnpackedFloat.unpack .binary64 (UnpackedFloat.pack .binary64 _) = _
  rw [pack_finite, if_pos large, unpack_packComponents]
  rfl

/-- A rounded number is packed without loss, or it is too large. -/
theorem parts_ofCount (sign : Sign) {count : ℕ} (fits : count ≤ 2 ^ 53) {exponent : ℤ}
    (lowest : -1074 ≤ exponent) (long : 2 ^ 52 ≤ count ∨ exponent = -1074) :
    (ofCount sign count exponent).isFinite ∧
        parts (ofParts (ofCount sign count exponent)) = ofCount sign count exponent ∨
      971 ≤ exponent ∧ parts (ofParts (ofCount sign count exponent)) = .infinity sign := by
  unfold ofCount
  split
  · exact .inl ⟨rfl, parts_ofParts trivial⟩
  · split
    · by_cases large : 972 ≤ exponent + 1
      · exact .inr ⟨by omega, parts_ofParts_of_overflow sign _ large⟩
      · exact .inl ⟨rfl, parts_ofParts ⟨by norm_num, by omega, by omega, .inl le_rfl⟩⟩
    · by_cases large : 972 ≤ exponent
      · exact .inr ⟨by omega, parts_ofParts_of_overflow sign _ large⟩
      · exact .inl ⟨rfl, parts_ofParts ⟨by omega, lowest, by omega, long⟩⟩

/-- The number that a finite double is. -/
noncomputable def toReal (number : Float) : ℝ := value (parts number)

/-- A double is a number rounded, or the number is too large for that. -/
inductive IsRounded (exact : ℝ) (number : Float) : Prop where
  | finite (finite : number.isFinite) (rounds : Rounds exact (toReal number))
  | overflow (infinite : ¬number.isFinite) (large : 2 ^ 1023 ≤ |exact|)

theorem IsRounded.rounds {exact : ℝ} {number : Float} (rounded : IsRounded exact number)
    (small : |exact| < 2 ^ 10) : number.isFinite ∧ Rounds exact (toReal number) := by
  cases rounded with
  | finite finite rounds => exact ⟨finite, rounds⟩
  | overflow infinite large =>
      have le : (2 : ℝ) ^ 10 ≤ 2 ^ 1023 := pow_le_pow_right₀ one_le_two (by norm_num)
      exact absurd small (le.trans large).not_gt

theorem IsRounded.rounds_of_isFinite {exact : ℝ} {number : Float}
    (rounded : IsRounded exact number) (isFinite : number.isFinite) :
    Rounds exact (toReal number) := by
  cases rounded with
  | finite _ rounds => exact rounds
  | overflow infinite => exact absurd isFinite infinite

theorem isRounded_ofCount (sign : Sign) {count : ℕ} (fits : count ≤ 2 ^ 53) {exponent : ℤ}
    {exact : ℝ} (lowest : -1074 ≤ exponent)
    (long : 2 ^ 52 * 2 ^ exponent ≤ |exact| ∨ exponent = -1074)
    (near : |factor sign * (count * 2 ^ exponent) - exact| < 2 ^ exponent) :
    IsRounded exact (ofParts (ofCount sign count exponent)) := by
  have rounds : Rounds exact (value (ofCount sign count exponent)) := by
    rw [value_ofCount]
    exact ⟨exponent, long, near⟩
  have long' : 2 ^ 52 ≤ count ∨ exponent = -1074 := by
    refine long.imp_left ?_
    intro long
    have size : |factor sign * (count * 2 ^ exponent)| = count * 2 ^ exponent := by
      rw [abs_mul, abs_factor, one_mul, abs_of_nonneg (by positivity)]
    have apart := abs_sub_abs_le_abs_sub exact (factor sign * (count * 2 ^ exponent))
    rw [size, abs_sub_comm] at apart
    have bound : ((2 ^ 52 : ℕ) : ℝ) * 2 ^ exponent < (count + 1 : ℕ) * 2 ^ exponent := by
      push_cast
      linarith
    have := Nat.cast_lt.1 (lt_of_mul_lt_mul_right bound (by positivity))
    omega
  rcases parts_ofCount sign fits lowest long' with ⟨finite, parts_eq⟩ | ⟨large, parts_eq⟩
  · apply IsRounded.finite
    · change (parts (ofParts _)).isFinite
      rw [parts_eq]
      exact finite
    · rw [toReal, parts_eq]
      exact rounds
  · apply IsRounded.overflow
    · change ¬(parts (ofParts _)).isFinite
      rw [parts_eq]
      exact nofun
    have long := long.resolve_right (by omega)
    have scale : (2 : ℝ) ^ (971 : ℤ) ≤ 2 ^ exponent := zpow_le_zpow_right₀ one_le_two large
    calc (2 : ℝ) ^ 1023 = 2 ^ 52 * 2 ^ (971 : ℤ) := by rw [zpow_ofNat, ← pow_add]
      _ ≤ 2 ^ 52 * 2 ^ exponent := by linarith
      _ ≤ |exact| := long

/--
A mantissa with a note on its accuracy is rounded as the number is that it approximates from below.
-/
theorem isRounded_roundWithAccuracy (sign : Sign) {mantissa : ℕ} {exponent : ℤ}
    (le : exponent ≤ max (mantissa.log2 + 1 + exponent - 53) (-1074))
    {accuracy : Accuracy} {size : ℝ} (lower : mantissa * 2 ^ exponent ≤ size)
    (upper : size < (mantissa + 1) * 2 ^ exponent)
    (hit : size = mantissa * 2 ^ exponent → accuracy = .exact) :
    IsRounded (factor sign * size)
      (ofParts (roundWithAccuracy .binary64 sign mantissa exponent accuracy)) := by
  generalize target_eq : max (mantissa.log2 + 1 + exponent - 53 : ℤ) (-1074) = target at le
  rcases roundWithAccuracy_eq_ofCount sign target_eq le accuracy with ⟨fits, rounded⟩
  rw [rounded]
  generalize shift_eq : (target - exponent).toNat = shift at fits
  have scale : (2 : ℝ) ^ target = 2 ^ shift * 2 ^ exponent := by
    rw [← zpow_natCast, ← zpow_add₀ two_ne_zero]
    congr 1
    omega
  have pos : (0 : ℝ) < 2 ^ exponent := by positivity
  have nonneg : 0 ≤ size := le_trans (by positivity) lower
  have abs_eq : |factor sign * size| = size := by
    rw [abs_mul, abs_factor, one_mul, abs_of_nonneg nonneg]
  have floor_le : ((mantissa / 2 ^ shift : ℕ) : ℝ) * 2 ^ target ≤ mantissa * 2 ^ exponent := by
    rw [scale, ← mul_assoc]
    apply mul_le_mul_of_nonneg_right _ pos.le
    exact_mod_cast Nat.div_mul_le_self mantissa (2 ^ shift)
  have lt_floor : size < ((mantissa / 2 ^ shift : ℕ) + 1) * 2 ^ target := by
    have next : mantissa + 1 ≤ (mantissa / 2 ^ shift + 1) * 2 ^ shift := by
      rw [add_one_mul]
      exact Nat.lt_div_mul_add (by positivity)
    refine upper.trans_le ?_
    rw [scale, ← mul_assoc]
    apply mul_le_mul_of_nonneg_right _ pos.le
    exact_mod_cast next
  apply isRounded_ofCount sign fits (by omega)
  · rw [abs_eq, or_iff_not_imp_right]
    intro above
    refine le_trans ?_ lower
    have bound : 2 ^ 52 * 2 ^ shift ≤ mantissa := by
      have nonzero : mantissa ≠ 0 := by
        rintro rfl
        rw [Nat.log2_zero] at target_eq
        omega
      rw [← pow_add]
      refine (Nat.pow_le_pow_right two_pos ?_).trans (Nat.log2_self_le nonzero)
      omega
    rw [scale, ← mul_assoc]
    apply mul_le_mul_of_nonneg_right _ pos.le
    exact_mod_cast bound
  · rw [← mul_sub, abs_mul, abs_factor, one_mul, abs_lt]
    rcases roundedShift_mem mantissa accuracy shift with count_eq | count_eq
    · rw [count_eq]
      constructor <;> linarith
    · -- it is rounded up only if something is left over, and then the exact number is larger
      have above : ((mantissa / 2 ^ shift : ℕ) : ℝ) * 2 ^ target < size := by
        refine lt_of_le_of_ne (floor_le.trans lower) ?_
        intro same
        have same' : size = mantissa * 2 ^ exponent := le_antisymm (same ▸ floor_le) lower
        have whole : mantissa = mantissa / 2 ^ shift * 2 ^ shift := by
          rw [same', scale, ← mul_assoc] at same
          exact_mod_cast (mul_right_cancel₀ pos.ne' same).symm
        have count_eq' := roundedShift_exact (mantissa / 2 ^ shift) shift
        rw [← whole, ← hit same'] at count_eq'
        omega
      rw [count_eq]
      push_cast
      constructor <;> linarith

theorem isRounded_ofParts {unpacked : UnpackedFloat} (canonical : Canonical unpacked)
    (finite : unpacked.isFinite) : IsRounded (value unpacked) (ofParts unpacked) := by
  suffices rounds : Rounds (value unpacked) (value unpacked) by
    apply IsRounded.finite
    · change (parts (ofParts unpacked)).isFinite
      rwa [parts_ofParts canonical]
    · rwa [toReal, parts_ofParts canonical]
  cases unpacked with
  | notANumber => cases finite
  | infinity sign => cases finite
  | zero sign => exact ⟨-1074, .inr rfl, by simp⟩
  | finite sign mantissa exponent positive =>
      rcases canonical with ⟨-, -, -, long⟩
      have pos : (0 : ℝ) < 2 ^ exponent := by positivity
      refine ⟨exponent, ?_, by simpa using pos⟩
      rw [value_finite, abs_mul, abs_factor, one_mul, abs_of_nonneg (by positivity)]
      exact long.imp_left fun long => mul_le_mul_of_nonneg_right (by exact_mod_cast long) pos.le

theorem isRounded_zero (sign : Sign) : IsRounded 0 (ofParts (.zero sign)) := by
  have canonical : Canonical (.zero sign) := trivial
  exact isRounded_ofParts canonical rfl

theorem roundWithAccuracy_zero (sign : Sign) (exponent : ℤ) :
    roundWithAccuracy .binary64 sign 0 exponent .exact = .zero sign := by
  have shifted (shift : ℕ) := shiftRight_exact 0 shift
  simp only [zero_mul] at shifted
  have rounded : (ExtendedMantissa.ofMantissaAndAccuracy 0 .exact).roundedMantissa = 0 := rfl
  simp only [roundWithAccuracy, shiftToTargetExponent, shiftToExponent, shifted, rounded]
  rfl

theorem log2_shiftLeft {number : ℕ} (positive : 0 < number) (shift : ℕ) :
    (number <<< shift).log2 = number.log2 + shift := by
  have nonzero : number * 2 ^ shift ≠ 0 := by positivity
  rw [Nat.shiftLeft_eq, Nat.log2_eq_iff nonzero, pow_add, add_right_comm, pow_add _ (_ + 1)]
  exact ⟨Nat.mul_le_mul_right _ (Nat.log2_self_le positive.ne'),
    Nat.mul_lt_mul_of_pos_right Nat.lt_log2_self (by positivity)⟩

theorem isRounded_round (sign : Sign) (mantissa : ℕ) (exponent : ℤ) :
    IsRounded (factor sign * (mantissa * 2 ^ exponent))
      (ofParts (UnpackedFloat.round .binary64 sign mantissa exponent)) := by
  simp only [UnpackedFloat.round, decreaseExponent, targetExponent_eq, totalExponent]
  generalize shift_eq : (exponent - max ((mantissa.log2 : ℤ) + 1 + exponent - 53) (-1074)).toNat =
    shift
  rcases Nat.eq_zero_or_pos mantissa with rfl | positive
  · rw [Nat.zero_shiftLeft, roundWithAccuracy_zero, Nat.cast_zero, zero_mul, mul_zero]
    exact isRounded_zero sign
  · have length := log2_shiftLeft positive shift
    have same : ((mantissa <<< shift : ℕ) : ℝ) * 2 ^ (exponent - shift) =
        mantissa * 2 ^ exponent := by
      rw [Nat.shiftLeft_eq, Nat.cast_mul, Nat.cast_pow, Nat.cast_ofNat, mul_assoc, ← zpow_natCast,
        ← zpow_add₀ two_ne_zero, add_sub_cancel]
    rw [← same]
    apply isRounded_roundWithAccuracy sign
    · rw [length]
      push_cast
      omega
    · exact le_rfl
    · rw [add_one_mul]
      exact lt_add_of_pos_right _ (by positivity)
    · exact fun _ => rfl

theorem isRounded_normalize (mantissa exponent : ℤ) (sign : Sign) :
    IsRounded (mantissa * 2 ^ exponent)
      (ofParts (UnpackedFloat.normalize .binary64 mantissa exponent sign)) := by
  unfold UnpackedFloat.normalize
  rcases lt_trichotomy mantissa 0 with negative | rfl | positive
  · rw [Int.compare_eq_lt.2 negative]
    have rounded := isRounded_round .negative (-mantissa).toNat exponent
    have size : (((-mantissa).toNat : ℕ) : ℝ) = -mantissa := by
      exact_mod_cast Int.toNat_of_nonneg (by omega : 0 ≤ -mantissa)
    rwa [size, factor, neg_mul, neg_mul, one_mul, neg_neg] at rounded
  · rw [Int.cast_zero, zero_mul]
    exact isRounded_zero sign
  · rw [Int.compare_eq_gt.2 positive]
    have rounded := isRounded_round .positive mantissa.toNat exponent
    have size : ((mantissa.toNat : ℕ) : ℝ) = mantissa := by
      exact_mod_cast Int.toNat_of_nonneg positive.le
    rwa [size, factor, one_mul] at rounded

theorem value_decreaseExponent (sign : Sign) (mantissa : ℕ) {exponent target : ℤ}
    (le : target ≤ exponent) :
    ((sign.apply (decreaseExponent mantissa exponent target).1 : ℤ) : ℝ) * 2 ^ target =
      factor sign * (mantissa * 2 ^ exponent) := by
  have scaled : ((decreaseExponent mantissa exponent target).1 : ℝ) * 2 ^ target =
      mantissa * 2 ^ exponent := by
    simp only [decreaseExponent, Nat.shiftLeft_eq, Nat.cast_mul, Nat.cast_pow, Nat.cast_ofNat]
    rw [mul_assoc, ← zpow_natCast, ← zpow_add₀ two_ne_zero]
    congr 2
    omega
  cases sign with
  | positive => simpa [Sign.apply, factor] using scaled
  | negative => simpa [Sign.apply, factor] using scaled

theorem value_zero (sign : Sign) : value (.zero sign) = 0 := rfl

/-- A quotient in the form in which it is rounded has enough bits. -/
theorem le_log2_quotient {mantissa mantissa' shift : ℕ} (positive : 0 < mantissa)
    (positive' : 0 < mantissa') (enough : mantissa'.log2 + 53 ≤ mantissa.log2 + shift) :
    52 ≤ (mantissa <<< shift / mantissa').log2 := by
  have bound : 2 ^ 52 ≤ mantissa <<< shift / mantissa' := by
    rw [Nat.le_div_iff_mul_le positive', Nat.shiftLeft_eq]
    calc 2 ^ 52 * mantissa' ≤ 2 ^ 52 * 2 ^ (mantissa'.log2 + 1) :=
          Nat.mul_le_mul_left _ Nat.lt_log2_self.le
      _ = 2 ^ (mantissa'.log2 + 53) := by ring
      _ ≤ 2 ^ (mantissa.log2 + shift) := Nat.pow_le_pow_right two_pos enough
      _ = 2 ^ mantissa.log2 * 2 ^ shift := pow_add ..
      _ ≤ mantissa * 2 ^ shift := Nat.mul_le_mul_right _ (Nat.log2_self_le positive.ne')
  exact (Nat.le_log2 (by omega)).2 bound

theorem isRounded_quotient (sign : Sign) {mantissa mantissa' : ℕ} (positive : 0 < mantissa)
    (positive' : 0 < mantissa') (exponent exponent' : ℤ) :
    IsRounded (factor sign * (mantissa * 2 ^ exponent / (mantissa' * 2 ^ exponent')))
      (ofParts (let quotient := divCore .binary64 mantissa exponent mantissa' exponent'
        roundWithAccuracy .binary64 sign quotient.1 quotient.2.1 quotient.2.2)) := by
  simp only [divCore, targetExponent_eq, totalExponent]
  generalize target_eq : min (exponent - exponent') (max ((mantissa.log2 : ℤ) + 1 + exponent -
    (mantissa'.log2 + 1 + exponent') - 53) (-1074)) = target
  generalize shift_eq : (exponent - exponent' - target).toNat = shift
  have size_eq : (mantissa : ℝ) * 2 ^ exponent / (mantissa' * 2 ^ exponent') =
      (mantissa <<< shift : ℕ) / mantissa' * 2 ^ target := by
    have scale : (2 : ℝ) ^ exponent = 2 ^ shift * 2 ^ target * 2 ^ exponent' := by
      rw [← zpow_natCast, ← zpow_add₀ two_ne_zero, ← zpow_add₀ two_ne_zero]
      congr 1
      omega
    rw [Nat.shiftLeft_eq, scale]
    push_cast
    field_simp
  generalize numerator_eq : mantissa <<< shift = numerator at size_eq
  have pos : (0 : ℝ) < mantissa' := by exact_mod_cast positive'
  have scale_pos : (0 : ℝ) < 2 ^ target := by positivity
  rw [size_eq]
  apply isRounded_roundWithAccuracy
  · by_cases underflow : target ≤ -1074
    · omega
    · have long := le_log2_quotient positive positive' (show _ ≤ mantissa.log2 + shift by omega)
      rw [numerator_eq] at long
      omega
  · apply mul_le_mul_of_nonneg_right _ scale_pos.le
    exact Nat.cast_div_le
  · apply mul_lt_mul_of_pos_right _ scale_pos
    have next : numerator < (numerator / mantissa' + 1) * mantissa' := by
      rw [add_one_mul]
      exact Nat.lt_div_mul_add positive'
    rw [div_lt_iff₀ pos]
    exact_mod_cast next
  · intro hit
    have whole : numerator = numerator / mantissa' * mantissa' := by
      have quotient := mul_right_cancel₀ scale_pos.ne' hit
      rw [div_eq_iff pos.ne'] at quotient
      exact_mod_cast quotient
    apply if_pos
    have := Nat.div_add_mod' numerator mantissa'
    omega

section Parts

variable {first second : UnpackedFloat} (number : IsNumber first) (number' : IsNumber second)
include number number'

theorem isRounded_ofParts_add :
    IsRounded (value first + value second) (ofParts (first.add .binary64 second)) := by
  cases number with
  | zero sign =>
      cases number' with
      | zero sign' =>
          rw [value_zero, value_zero, add_zero]
          simp only [UnpackedFloat.add]
          split <;> exact isRounded_zero _
      | finite canonical =>
          rw [value_zero, zero_add]
          exact isRounded_ofParts canonical rfl
  | @finite sign mantissa exponent positive canonical =>
      cases number' with
      | zero sign' =>
          rw [value_zero, add_zero]
          exact isRounded_ofParts canonical rfl
      | @finite sign' mantissa' exponent' positive' canonical' =>
          have rounded := isRounded_normalize
            (sign.apply (decreaseExponent mantissa exponent (min exponent exponent')).1 +
              sign'.apply (decreaseExponent mantissa' exponent' (min exponent exponent')).1)
            (min exponent exponent') .positive
          rw [Int.cast_add, add_mul, value_decreaseExponent sign mantissa (min_le_left _ _),
            value_decreaseExponent sign' mantissa' (min_le_right _ _)] at rounded
          rwa [value_finite, value_finite]

theorem isRounded_ofParts_div (nonzero : value second ≠ 0) :
    IsRounded (value first / value second) (ofParts (first.div .binary64 second)) := by
  cases number' with
  | zero sign' => exact absurd rfl nonzero
  | @finite sign' mantissa' exponent' positive' canonical' =>
      cases number with
      | zero sign =>
          rw [value_zero, zero_div]
          exact isRounded_zero _
      | @finite sign mantissa exponent positive canonical =>
          rw [value_finite, value_finite, mul_div_mul_comm, ← factor_div]
          exact isRounded_quotient _ positive positive' exponent exponent'

end Parts

protected theorem sub_eq_add_neg (first second : Float) : first - second = first + -second := by
  have same (first second : UnpackedFloat) :
      first.sub .binary64 second = first.add .binary64 second.neg := by
    have applied (sign : Sign) (number : ℤ) : (-sign).apply number = -sign.apply number := by
      cases sign
      · exact (neg_neg number).symm
      · rfl
    cases first with
    | finite =>
        cases second with
        | finite =>
            simp only [UnpackedFloat.sub, UnpackedFloat.add, UnpackedFloat.neg, applied]
            rfl
        | _ => rfl
    | _ => cases second <;> rfl
  change ofParts ((parts first).sub .binary64 (parts second)) =
    ofParts ((parts first).add .binary64 (parts (-second)))
  rw [parts_neg, same]

theorem toReal_neg (number : Float) : toReal (-number) = -toReal number := by
  rw [toReal, toReal, parts_neg]
  cases parts number with
  | finite sign mantissa exponent positive =>
      simp only [UnpackedFloat.neg, value, factor_neg, neg_mul]
  | _ => exact neg_zero.symm

theorem toReal_abs (number : Float) : toReal number.abs = |toReal number| := by
  rw [toReal, toReal, parts_abs]
  cases parts number with
  | finite sign mantissa exponent positive =>
      rw [UnpackedFloat.abs, value, value, abs_mul, abs_factor, factor,
        abs_of_nonneg (by positivity)]
  | _ => exact abs_zero.symm

section Arithmetic

variable {first second : Float} (finite : first.isFinite) (finite' : second.isFinite)
include finite finite'

theorem isRounded_add : IsRounded (toReal first + toReal second) (first + second) :=
  isRounded_ofParts_add (isNumber_parts finite) (isNumber_parts finite')

theorem isRounded_sub : IsRounded (toReal first - toReal second) (first - second) := by
  rw [Double.sub_eq_add_neg, sub_eq_add_neg, ← toReal_neg]
  exact isRounded_add finite (Double.isFinite_neg finite')

theorem isRounded_div (nonzero : toReal second ≠ 0) :
    IsRounded (toReal first / toReal second) (first / second) :=
  isRounded_ofParts_div (isNumber_parts finite) (isNumber_parts finite') nonzero

end Arithmetic

end Anyonic.Double
