import Anyonic.Proofs.Double.Laws
import Anyonic.Proofs.Reading.RoundTrip

/-!
# Quarter turns of doubles

When exchanges are quarter turns up to the tolerance of the lattice, a rounded quarter turn is one
exchange, in rounded arithmetic too.  The spacing of the lattice can be hardly further from a
quarter turn than the tolerance says, so that the quotient rounds to one; one exchange is then
taken away exactly, and what is left is the difference that was within the tolerance.
-/

namespace Anyonic

namespace Double

open Float.Model Float.Model.UnpackedFloat

theorem isFinite_of_sub {first second : Float} (finite : (first - second).isFinite)
    (finite' : second.isFinite) : first.isFinite := by
  have absorbed {special other : UnpackedFloat} (number : IsNumber other)
      (infinite : (∃ sign, special = .infinity sign) ∨ special = .notANumber) :
      special.sub .binary64 other = special := by
    rcases infinite with ⟨sign, rfl⟩ | rfl <;> cases number <;> rfl
  rcases (canonical_parts first).isNumber_or with number | infinite
  · exact isFinite_of_isNumber number
  · change (ofParts ((parts first).sub .binary64 (parts second))).isFinite at finite
    rwa [absorbed (isNumber_parts finite') infinite, ofParts_parts] at finite

protected theorem add_comm (first second : Float) : first + second = second + first := by
  have same (first second : UnpackedFloat) :
      first.add .binary64 second = second.add .binary64 first := by
    cases first with
    | notANumber => cases second <;> rfl
    | infinity sign =>
        cases second with
        | infinity sign' => cases sign <;> cases sign' <;> rfl
        | _ => rfl
    | zero sign =>
        cases second with
        | zero sign' => cases sign <;> cases sign' <;> rfl
        | _ => rfl
    | finite sign mantissa exponent positive =>
        cases second with
        | finite sign' mantissa' exponent' positive' =>
            simp only [UnpackedFloat.add]
            rw [min_comm, add_comm]
        | _ => rfl
  exact congrArg ofParts (same (parts first) (parts second))

theorem mul_unit (sign : Sign) {sign' : Sign} {mantissa : ℕ} {exponent : ℤ}
    {positive : 0 < mantissa}
    (canonical : Canonical (.finite sign' mantissa exponent positive)) :
    UnpackedFloat.mul .binary64 (.finite sign (2 ^ 52) (-52) (by decide))
      (.finite sign' mantissa exponent positive) =
        .finite (sign * sign') mantissa exponent positive := by
  rcases canonical with ⟨short, lowest, -, long⟩
  have length := log2_shiftLeft positive 52
  rw [Nat.shiftLeft_eq] at length
  have bound := (Nat.log2_lt positive.ne').2 short
  have target : max (((mantissa * 2 ^ 52).log2 : ℤ) + 1 + (-52 + exponent) - 53) (-1074) =
      exponent := by
    rcases long with long | rfl
    · have := (Nat.le_log2 positive.ne').2 long
      omega
    · omega
  rw [UnpackedFloat.mul, mul_comm (2 ^ 52) mantissa,
    (roundWithAccuracy_eq_ofCount _ target (by omega) .exact).2,
    show (exponent - (-52 + exponent)).toNat = 52 by omega, roundedShift_exact, ofCount,
    dif_neg positive.ne', if_neg short.ne]

/-- Parts times one or minus one. -/
def withSign (unpacked : UnpackedFloat) : Sign → UnpackedFloat
  | .positive => unpacked
  | .negative => unpacked.neg

theorem unit_mul {unit : Float} {sign : Sign}
    (unit_eq : unit = ofParts (.finite sign (2 ^ 52) (-52) (by decide))) {number : Float}
    (finite : number.isFinite) : unit * number = ofParts (withSign (parts number) sign) := by
  have canonical : Canonical (.finite sign (2 ^ 52) (-52) (by decide)) := by
    norm_num [Canonical]
  have product {unpacked : UnpackedFloat} (isNumber : IsNumber unpacked) :
      UnpackedFloat.mul .binary64 (.finite sign (2 ^ 52) (-52) (by decide)) unpacked =
        withSign unpacked sign := by
    cases isNumber with
    | zero sign' => cases sign <;> cases sign' <;> rfl
    | @finite sign' mantissa exponent positive canonical =>
        rw [mul_unit sign canonical]
        cases sign <;> cases sign' <;> rfl
  change ofParts ((parts unit).mul .binary64 (parts number)) = _
  rw [unit_eq, parts_ofParts canonical, product (isNumber_parts finite)]

theorem ofInt_one_mul {number : Float} (finite : number.isFinite) :
    Float.ofInt 1 * number = number := by
  have unit_eq : Float.ofInt 1 = ofParts (.finite .positive (2 ^ 52) (-52) (by decide)) := by
    decide +kernel
  rw [unit_mul unit_eq finite]
  exact ofParts_parts number

theorem ofInt_neg_one_mul {number : Float} (finite : number.isFinite) :
    Float.ofInt (-1) * number = -number := by
  have unit_eq : Float.ofInt (-1) = ofParts (.finite .negative (2 ^ 52) (-52) (by decide)) := by
    decide +kernel
  rw [unit_mul unit_eq finite]
  rfl

theorem ofFloat?_quarter : Binary64.ofFloat? (Scalar.pi / 2.0) =
    some ⟨false, 7074237752028440, -52⟩ := by
  decide +kernel

theorem ofFloat?_latticeTolerance : Binary64.ofFloat? PhaseLattice.latticeTolerance =
    some ⟨false, 7737125245533627, -86⟩ := by
  decide +kernel

theorem ofFloat?_two : Binary64.ofFloat? 2.0 = some ⟨false, 4503599627370496, -51⟩ := by
  decide +kernel

theorem isFinite_quarter : (Scalar.pi / 2.0 : Float).isFinite := by decide +kernel

theorem isFinite_latticeTolerance : (PhaseLattice.latticeTolerance : Float).isFinite := by
  decide +kernel

theorem toReal_quarter : toReal (Scalar.pi / 2.0) = 7074237752028440 / 2 ^ 52 := by
  rw [Binary64.toReal_eq ofFloat?_quarter isFinite_quarter]
  norm_num [Binary64.value]

theorem toReal_latticeTolerance_le : toReal PhaseLattice.latticeTolerance ≤ 1 / 10 ^ 9 := by
  rw [Binary64.toReal_eq ofFloat?_latticeTolerance isFinite_latticeTolerance]
  norm_num [Binary64.value]

theorem toReal_half {number : Float} (finite : number.isFinite) (small : |toReal number| ≤ 2) :
    (number / 2.0).isFinite ∧ |toReal (number / 2.0) - toReal number / 2| ≤ 1 / 4 := by
  have isFinite : (2.0 : Float).isFinite := by decide +kernel
  have two : toReal 2.0 = 2 := by
    rw [Binary64.toReal_eq ofFloat?_two isFinite]
    norm_num [Binary64.value]
  have rounded := isRounded_div finite isFinite (by rw [two]; exact two_ne_zero)
  have halved : |toReal number / 2| ≤ 1 := by
    rw [abs_div, abs_two]
    linarith
  rw [two] at rounded
  rcases rounded.rounds (by linarith) with ⟨finite, rounds⟩
  refine ⟨finite, rounds.abs_sub_le.trans ?_⟩
  linarith

section Lattice

variable {lattice : PhaseLattice Float}

/-- Exchanges that are quarter turns up to rounding are quarter turns up to a little more. -/
theorem abs_spacing_sub_le (quartered : lattice.IsQuartered) :
    lattice.spacing.isFinite ∧
      |toReal lattice.spacing - toReal (Scalar.pi / 2.0)| ≤ 1 / 10 ^ 8 := by
  rcases isFinite_of_abs_le isFinite_latticeTolerance quartered with ⟨finite, near⟩
  have isFinite := isFinite_of_sub finite isFinite_quarter
  refine ⟨isFinite, ?_⟩
  have rounds := (isRounded_sub isFinite isFinite_quarter).rounds_of_isFinite finite
  have apart := abs_sub_abs_le_abs_sub (toReal lattice.spacing - toReal (Scalar.pi / 2.0))
    (toReal (lattice.spacing - Scalar.pi / 2.0))
  have bound := rounds.abs_sub_le
  rw [abs_sub_comm] at bound
  have tolerance := toReal_latticeTolerance_le
  linarith

omit lattice in
theorem abs_spacing_le {spacing : ℝ} (near : |spacing - toReal (Scalar.pi / 2.0)| ≤ 1 / 10 ^ 8) :
    |spacing - 3 / 2| ≤ 1 / 4 := by
  rw [toReal_quarter] at near
  rcases abs_le.1 near with ⟨lower, upper⟩
  norm_num at lower upper
  rw [abs_le]
  constructor <;> linarith

variable (finite : lattice.spacing.isFinite) (spacing : |toReal lattice.spacing - 3 / 2| ≤ 1 / 4)
include finite spacing

theorem nearest_div_spacing {angle : Float} (isFinite : angle.isFinite) {count : ℤ}
    (single : |(count : ℝ)| ≤ 1)
    (near : |toReal angle - count * toReal lattice.spacing| ≤ 1 / 10 ^ 8) :
    nearest (angle / lattice.spacing) = count := by
  rcases abs_le.1 spacing with ⟨above, -⟩
  have pos : 0 < toReal lattice.spacing := by linarith
  have close : |toReal angle / toReal lattice.spacing - count| ≤ 1 / 10 ^ 8 := by
    have quotient : toReal angle / toReal lattice.spacing - count =
        (toReal angle - count * toReal lattice.spacing) / toReal lattice.spacing := by
      field_simp
    rw [quotient, abs_div, abs_of_pos pos]
    refine (div_le_self (abs_nonneg _) ?_).trans near
    linarith
  have small : |toReal angle / toReal lattice.spacing| ≤ 2 := by
    have := abs_sub_abs_le_abs_sub (toReal angle / toReal lattice.spacing) count
    linarith
  rcases (isRounded_div isFinite finite pos.ne').rounds (by linarith) with ⟨isFinite, rounds⟩
  have counted : -1 ≤ count ∧ count ≤ 1 := by
    exact_mod_cast abs_le.1 single
  refine nearest_eq isFinite (le_trans (by decide) counted.1) (counted.2.trans (by decide)) ?_
  have error := rounds.abs_sub_le
  have sum := abs_sub_le (toReal (angle / lattice.spacing))
    (toReal angle / toReal lattice.spacing) count
  linarith

/-- An angle that leaves little over after some exchanges is on the lattice. -/
theorem onLattice_of_residual {angle : Float} {count : ℤ}
    (normal : Scalar.normalizeAngle angle = angle)
    (counted : nearest (angle / lattice.spacing) = count)
    (near : (angle - Float.ofInt count * lattice.spacing).abs ≤ PhaseLattice.latticeTolerance) :
    lattice.OnLattice angle count := by
  rcases abs_le.1 spacing with ⟨above, below⟩
  rcases isFinite_of_abs_le isFinite_latticeTolerance near with ⟨isFinite, small⟩
  rcases abs_le.1 (small.trans toReal_latticeTolerance_le) with ⟨lower, upper⟩
  have size : |toReal lattice.spacing| ≤ 2 := by
    rw [abs_le]
    constructor <;> linarith
  refine ⟨angle - Float.ofInt count * lattice.spacing, ?_, LawfulScalar.not_lt_of_le near⟩
  have counted : Scalar.nearest (angle / lattice.spacing) = count := counted
  simp only [PhaseLattice.round, normal, counted]
  rw [if_neg, if_neg]
  · rfl
  · rcases toReal_half finite size with ⟨isFinite', half⟩
    refine fun exceeded => ((lt_iff_toReal isFinite' isFinite).1 exceeded).not_ge ?_
    have := (abs_le.1 half).1
    linarith
  · rw [← abs_neg, ← toReal_neg] at size
    rcases toReal_half (Double.isFinite_neg finite) size with ⟨isFinite', half⟩
    refine fun exceeded => ((le_iff_toReal isFinite isFinite').1 exceeded).not_gt ?_
    rw [toReal_neg] at half
    have := (abs_le.1 half).2
    linarith

end Lattice

end Double

open Double in
instance QuarterScalar.double : QuarterScalar Float where
  onLattice_quarter := by
    intro lattice quartered
    rcases abs_spacing_sub_le quartered with ⟨finite, spacing⟩
    have near := abs_spacing_le spacing
    apply onLattice_of_residual finite near
    · decide +kernel
    · apply nearest_div_spacing finite near isFinite_quarter
      · simp
      · rwa [Int.cast_one, one_mul, abs_sub_comm]
    · rw [ofInt_one_mul finite, Double.abs_sub_comm]
      exact quartered
  onLattice_neg_quarter := by
    intro lattice quartered
    rcases abs_spacing_sub_le quartered with ⟨finite, spacing⟩
    have near := abs_spacing_le spacing
    have opposite : (-Scalar.pi / 2.0 : Float) = -(Scalar.pi / 2.0) := by decide +kernel
    apply onLattice_of_residual finite near
    · decide +kernel
    · apply nearest_div_spacing finite near
      · rw [opposite]
        exact Double.isFinite_neg isFinite_quarter
      · simp
      · rwa [opposite, toReal_neg, Int.cast_neg, Int.cast_one, neg_one_mul, neg_sub_neg]
    · rw [ofInt_neg_one_mul finite, opposite, Double.sub_eq_add_neg, Double.neg_neg,
        Double.add_comm, ← Double.sub_eq_add_neg]
      exact quartered

end Anyonic
