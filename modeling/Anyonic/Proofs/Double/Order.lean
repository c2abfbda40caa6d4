import Anyonic.Proofs.Double.Rounding

/-!
# The order of doubles

Doubles are compared part by part, the exponents before the mantissas.  Since mantissas are as long
as they can be, this is the order of the numbers that the parts stand for, with an infinity at
either end.  An undefined value stands nowhere.
-/

namespace Anyonic.Double

open Float.Model Float.Model.UnpackedFloat

/-- Where defined parts stand among the numbers and the two infinities. -/
noncomputable def position : UnpackedFloat → EReal
  | .infinity .positive => ⊤
  | .infinity .negative => ⊥
  | unpacked => value unpacked

theorem lt_of_exponent_lt {mantissa mantissa' : ℕ} {exponent exponent' : ℤ}
    (short : mantissa < 2 ^ 53) (lowest : -1074 ≤ exponent)
    (long : 2 ^ 52 ≤ mantissa' ∨ exponent' = -1074) (lt : exponent < exponent') :
    (mantissa : ℝ) * 2 ^ exponent < mantissa' * 2 ^ exponent' := by
  have long : 2 ^ 52 ≤ mantissa' := long.resolve_right (by omega)
  calc (mantissa : ℝ) * 2 ^ exponent < 2 ^ 53 * 2 ^ exponent :=
        mul_lt_mul_of_pos_right (by exact_mod_cast short) (by positivity)
    _ = 2 ^ 52 * 2 ^ (exponent + 1) := by
        rw [zpow_add_one₀ two_ne_zero]
        ring
    _ ≤ 2 ^ 52 * 2 ^ exponent' :=
        mul_le_mul_of_nonneg_left (zpow_le_zpow_right₀ one_le_two lt) (by positivity)
    _ ≤ mantissa' * 2 ^ exponent' :=
        mul_le_mul_of_nonneg_right (by exact_mod_cast long) (by positivity)

/-- Mantissas of full length are compared exponent first. -/
theorem compares_finite {sign sign' : Sign} {mantissa mantissa' : ℕ} {exponent exponent' : ℤ}
    {positive : 0 < mantissa} {positive' : 0 < mantissa'}
    (canonical : Canonical (.finite sign mantissa exponent positive))
    (canonical' : Canonical (.finite sign' mantissa' exponent' positive')) :
    ((compare exponent exponent').then (compare mantissa mantissa')).Compares
      ((mantissa : ℝ) * 2 ^ exponent) (mantissa' * 2 ^ exponent') := by
  rcases canonical with ⟨short, lowest, -, long⟩
  rcases canonical' with ⟨short', lowest', -, long'⟩
  rcases lt_trichotomy exponent exponent' with lt | rfl | lt
  · rw [Int.compare_eq_lt.2 lt]
    exact lt_of_exponent_lt short lowest long' lt
  · rw [Int.compare_eq_eq.2 rfl]
    have pos : (0 : ℝ) < 2 ^ exponent := by positivity
    rcases lt_trichotomy mantissa mantissa' with lt | rfl | lt
    · rw [Nat.compare_eq_lt.2 lt]
      exact mul_lt_mul_of_pos_right (by exact_mod_cast lt) pos
    · rw [Nat.compare_eq_eq.2 rfl]
      exact rfl
    · rw [Nat.compare_eq_gt.2 lt]
      exact mul_lt_mul_of_pos_right (by exact_mod_cast lt) pos
  · rw [Int.compare_eq_gt.2 lt]
    exact lt_of_exponent_lt short' lowest' long lt

theorem compares_neg {ordering : Ordering} {first second : ℝ}
    (compares : ordering.Compares first second) : ordering.Compares (-second) (-first) := by
  cases ordering with
  | lt => exact neg_lt_neg compares
  | eq => exact congrArg Neg.neg compares.symm
  | gt => exact neg_lt_neg compares

theorem exists_compare_number {first second : UnpackedFloat} (number : IsNumber first)
    (number' : IsNumber second) : ∃ ordering : Ordering,
      first.compare second = some ordering ∧ ordering.Compares (value first) (value second) := by
  cases number with
  | zero =>
      cases number' with
      | zero => exact ⟨_, rfl, rfl⟩
      | @finite sign' mantissa' exponent' positive' canonical' =>
          cases sign' with
          | positive => exact ⟨.lt, rfl, by simp [value, factor]; positivity⟩
          | negative => exact ⟨.gt, rfl, by simp [value, factor]; positivity⟩
  | @finite sign mantissa exponent positive canonical =>
      have pos : (0 : ℝ) < mantissa * 2 ^ exponent := by positivity
      cases number' with
      | zero =>
          cases sign with
          | positive => exact ⟨.gt, rfl, by simpa [value, factor] using pos⟩
          | negative => exact ⟨.lt, rfl, by simpa [value, factor] using pos⟩
      | @finite sign' mantissa' exponent' positive' canonical' =>
          have pos' : (0 : ℝ) < mantissa' * 2 ^ exponent' := by positivity
          have compares := compares_finite canonical canonical'
          cases sign <;> cases sign'
          · refine ⟨_, rfl, Ordering.compares_swap.2 ?_⟩
            simp only [value_finite, factor, neg_one_mul]
            exact compares_neg compares
          · refine ⟨.lt, rfl, ?_⟩
            simp only [value_finite, factor, Ordering.Compares]
            linarith
          · refine ⟨.gt, rfl, ?_⟩
            simp only [value_finite, factor, Ordering.Compares]
            linarith
          · refine ⟨_, rfl, ?_⟩
            simpa only [value_finite, factor, one_mul] using compares

theorem IsNumber.position_eq {unpacked : UnpackedFloat} (number : IsNumber unpacked) :
    position unpacked = value unpacked := by
  cases number <;> rfl

/-- Defined parts are compared like what they stand for. -/
theorem exists_compare_eq {first second : UnpackedFloat} (canonical : Canonical first)
    (canonical' : Canonical second) (defined : first ≠ .notANumber)
    (defined' : second ≠ .notANumber) : ∃ ordering : Ordering,
      first.compare second = some ordering ∧
        ordering.Compares (position first) (position second) := by
  rcases canonical.isNumber_or with number | ⟨sign, rfl⟩ | undefined
  · rw [number.position_eq]
    rcases canonical'.isNumber_or with number' | ⟨sign', rfl⟩ | undefined
    · rw [number'.position_eq]
      rcases exists_compare_number number number' with ⟨ordering, compared, compares⟩
      refine ⟨ordering, compared, ?_⟩
      cases ordering with
      | lt => exact EReal.coe_lt_coe compares
      | eq => exact congrArg _ compares
      | gt => exact EReal.coe_lt_coe compares
    · cases sign' with
      | positive => exact ⟨.lt, by cases number <;> rfl, EReal.coe_lt_top _⟩
      | negative => exact ⟨.gt, by cases number <;> rfl, EReal.bot_lt_coe _⟩
    · exact absurd undefined defined'
  · rcases canonical'.isNumber_or with number' | ⟨sign', rfl⟩ | undefined
    · rw [number'.position_eq]
      cases sign with
      | positive => exact ⟨.gt, by cases number' <;> rfl, EReal.coe_lt_top _⟩
      | negative => exact ⟨.lt, by cases number' <;> rfl, EReal.bot_lt_coe _⟩
    · cases sign <;> cases sign'
      · exact ⟨.eq, rfl, rfl⟩
      · exact ⟨.lt, rfl, bot_lt_top⟩
      · exact ⟨.gt, rfl, bot_lt_top⟩
      · exact ⟨.eq, rfl, rfl⟩
    · exact absurd undefined defined'
  · exact absurd undefined defined

theorem compare_undefined {first second : UnpackedFloat}
    (undefined : ¬(first ≠ .notANumber ∧ second ≠ .notANumber)) : first.compare second = none := by
  cases first <;> cases second <;> first | rfl | exact absurd ⟨nofun, nofun⟩ undefined

/-- Doubles of which none is undefined are ordered like what they stand for. -/
theorem lt_iff {first second : Float} : first < second ↔
    (parts first ≠ .notANumber ∧ parts second ≠ .notANumber) ∧
      position (parts first) < position (parts second) := by
  have unfolded : first < second ↔ ((parts first).compare (parts second) == some .lt) = true :=
    decide_eq_true_iff
  rw [unfolded, beq_iff_eq]
  by_cases defined : parts first ≠ .notANumber ∧ parts second ≠ .notANumber
  · rcases exists_compare_eq (canonical_parts first) (canonical_parts second) defined.1 defined.2
      with ⟨ordering, compared, compares⟩
    rw [compared, Option.some.injEq, compares.eq_lt, and_iff_right defined]
  · rw [compare_undefined defined, iff_false_intro defined, false_and]
    exact iff_false_intro nofun

theorem le_iff {first second : Float} : first ≤ second ↔
    (parts first ≠ .notANumber ∧ parts second ≠ .notANumber) ∧
      position (parts first) ≤ position (parts second) := by
  have unfolded : first ≤ second ↔
      ((parts first).compare (parts second)).any Ordering.isLE = true :=
    decide_eq_true_iff
  rw [unfolded]
  by_cases defined : parts first ≠ .notANumber ∧ parts second ≠ .notANumber
  · rcases exists_compare_eq (canonical_parts first) (canonical_parts second) defined.1 defined.2
      with ⟨ordering, compared, compares⟩
    rw [compared, Option.any_some, Ordering.isLE_iff_ne_gt, ← ne_eq, compares.ne_gt,
      and_iff_right defined]
  · rw [compare_undefined defined, iff_false_intro defined, false_and]
    exact iff_false_intro nofun

/-- Nothing that can be compared is above infinity. -/
theorem le_infinity {number : Float} (comparable : number ≤ number) : number ≤ 1.0 / 0.0 := by
  have infinite : parts (1.0 / 0.0) = .infinity .positive := rfl
  rw [le_iff] at comparable ⊢
  rw [infinite]
  exact ⟨⟨comparable.1.1, nofun⟩, le_top⟩

theorem position_parts {number : Float} (finite : number.isFinite) :
    parts number ≠ .notANumber ∧ position (parts number) = toReal number := by
  have isNumber := isNumber_parts finite
  refine ⟨?_, isNumber.position_eq⟩
  rintro undefined
  rw [undefined] at isNumber
  cases isNumber

theorem lt_iff_toReal {first second : Float} (finite : first.isFinite)
    (finite' : second.isFinite) : first < second ↔ toReal first < toReal second := by
  rcases position_parts finite with ⟨defined, position_eq⟩
  rcases position_parts finite' with ⟨defined', position_eq'⟩
  rw [lt_iff, and_iff_right ⟨defined, defined'⟩, position_eq, position_eq', EReal.coe_lt_coe_iff]

theorem le_iff_toReal {first second : Float} (finite : first.isFinite)
    (finite' : second.isFinite) : first ≤ second ↔ toReal first ≤ toReal second := by
  rcases position_parts finite with ⟨defined, position_eq⟩
  rcases position_parts finite' with ⟨defined', position_eq'⟩
  rw [le_iff, and_iff_right ⟨defined, defined'⟩, position_eq, position_eq', EReal.coe_le_coe_iff]

/-- What is not larger than a number is one. -/
theorem isFinite_of_abs_le {number bound : Float} (finite : bound.isFinite)
    (le : number.abs ≤ bound) : number.isFinite ∧ |toReal number| ≤ toReal bound := by
  rcases le_iff.1 le with ⟨⟨defined, -⟩, below⟩
  rw [(position_parts finite).2] at below
  rw [parts_abs] at defined below
  have isNumber : IsNumber (parts number) := by
    rcases (canonical_parts number).isNumber_or with isNumber | ⟨sign, unpacked⟩ | unpacked
    · exact isNumber
    · rw [unpacked] at below
      exact absurd below (not_le.2 (EReal.coe_lt_top _))
    · exact absurd (congrArg UnpackedFloat.abs unpacked) defined
  have isFinite' : number.abs.isFinite := by
    apply isFinite_of_isNumber
    rw [parts_abs]
    exact isNumber.abs
  refine ⟨isFinite_of_isNumber isNumber, ?_⟩
  rw [← toReal_abs]
  exact (le_iff_toReal isFinite' finite).1 le

/-- Only an undefined value differs from itself. -/
theorem beq_self_iff {number : Float} : (number == number) = true ↔ number.isNaN = false := by
  change (parts number).beq (parts number) = true ↔ (parts number).isNaN = false
  cases parts number with
  | notANumber => exact iff_of_false nofun nofun
  | infinity sign => exact iff_of_true (by cases sign <;> rfl) rfl
  | zero sign => exact iff_of_true rfl rfl
  | finite sign mantissa exponent positive =>
      refine iff_of_true ?_ rfl
      cases sign <;> simp [UnpackedFloat.beq, UnpackedFloat.compare]

theorem isNaN_of_isFinite {number : Float} (finite : number.isFinite) : number.isNaN = false := by
  change (parts number).isFinite at finite
  change (parts number).isNaN = false
  generalize parts number = unpacked at finite ⊢
  cases unpacked with
  | notANumber => cases finite
  | _ => rfl

end Anyonic.Double
