import Mathlib
import Anyonic.Proofs.Compile.Outcome
import Anyonic.Proofs.Exact.Errors
import Anyonic.Proofs.Reading.RoundTrip

/-!
# Rounding to the lattice of phases

In exact arithmetic an angle is brought between minus half a turn and half a turn and then divided
by the spacing of the lattice.  The quotient is rounded with halves away from zero, and where that
leaves minus half the spacing the count is corrected by one.  What remains lies in a half-open
interval as long as the spacing.  Four spacings of an Ising lattice are a full turn, so that any
other way to write the angle leaves as much or more, and no more than two exchanges are needed.
-/

namespace Anyonic

namespace Scalar

theorem residue_mem {modulus : ℝ} (positive : 0 < modulus) (value : ℝ) :
    0 ≤ residue value modulus ∧ residue value modulus < modulus := by
  have zero : (0.0 : ℝ) = 0 := by norm_num
  have split_eq : modulus * (value / modulus) = value := mul_div_cancel₀ value positive.ne'
  have remainder_eq : remainder value modulus = value - modulus *
      ((if 0 ≤ value / modulus then ⌊value / modulus⌋ else ⌈value / modulus⌉ : ℤ) : ℝ) := by
    simp only [remainder]
  simp only [residue, zero, exact_abs, abs_of_pos positive, remainder_eq]
  by_cases forward : 0 ≤ value / modulus
  · have lower := mul_le_mul_of_nonneg_left (Int.floor_le (value / modulus)) positive.le
    have upper := mul_lt_mul_of_pos_left (Int.lt_floor_add_one (value / modulus)) positive
    rw [if_pos forward, if_neg (by linarith)]
    constructor <;> linarith
  · have lower := mul_le_mul_of_nonneg_left (Int.le_ceil (value / modulus)) positive.le
    have upper := mul_lt_mul_of_pos_left (Int.ceil_lt_add_one (value / modulus)) positive
    rw [if_neg forward]
    split <;> constructor <;> linarith

theorem normalizeAngle_mem (angle : ℝ) :
    -Real.pi < normalizeAngle angle ∧ normalizeAngle angle ≤ Real.pi := by
  rcases residue_mem Real.two_pi_pos angle with ⟨lower, upper⟩
  have finite : isFinite angle = true := rfl
  simp only [normalizeAngle, finite, if_true, exact_turn, exact_pi]
  split
  · constructor <;> linarith
  · have := Real.pi_pos
    constructor <;> linarith

end Scalar

namespace PhaseLattice

/--
A multiple of the spacing from which an angle is no further than from any other, and what then
remains of the angle.  Angles count up to full turns.
-/
structure IsNearest (spacing angle : ℝ) (count : ℤ) (residual : ℝ) : Prop where
  congruent : ∃ turns : ℤ, angle = count * spacing + residual + turns * (2 * Real.pi)
  above : -spacing / 2 < residual
  below : residual ≤ spacing / 2
  minimal : ∀ (other turns : ℤ) (rest : ℝ),
    angle = other * spacing + rest + turns * (2 * Real.pi) → |residual| ≤ |rest|

variable {lattice : PhaseLattice ℝ}

/-- Rounding takes an angle apart into a multiple of the spacing and what remains. -/
theorem round_mem (positive : 0 < lattice.spacing) (angle : ℝ) :
    Scalar.normalizeAngle angle =
        (lattice.round angle).1 * lattice.spacing + (lattice.round angle).2 ∧
      -lattice.spacing / 2 < (lattice.round angle).2 ∧
      (lattice.round angle).2 ≤ lattice.spacing / 2 := by
  have two : (2.0 : ℝ) = 2 := by norm_num
  have ofInt_eq (count : ℤ) : (Scalar.ofInt count : ℝ) = count := rfl
  have split_eq := div_mul_cancel₀ (Scalar.normalizeAngle angle) positive.ne'
  rcases abs_le.1 (Scalar.abs_nearest_sub_le (Scalar.normalizeAngle angle / lattice.spacing)) with
    ⟨lower, upper⟩
  have lower' := mul_le_mul_of_nonneg_right lower positive.le
  have upper' := mul_le_mul_of_nonneg_right upper positive.le
  rw [sub_mul, split_eq] at lower' upper'
  simp only [round, two, ofInt_eq]
  split
  -- the quotient was half-way between two integers and went to the upper one
  · refine ⟨?_, ?_, ?_⟩
    · push_cast
      ring
    · linarith
    · linarith
  · split
    -- no exact residual is larger than half the spacing
    · refine ⟨?_, ?_, ?_⟩
      · push_cast
        ring
      · linarith
      · linarith
    · exact ⟨by ring, by linarith, by linarith⟩

/-- What remains within half a spacing of zero does not shrink when spacings are added. -/
theorem abs_le_abs_add_mul {spacing residual : ℝ} (above : -spacing / 2 < residual)
    (below : residual ≤ spacing / 2) (steps : ℤ) : |residual| ≤ |residual + steps * spacing| := by
  have small : |residual| ≤ spacing / 2 := abs_le.2 ⟨by linarith, below⟩
  rcases eq_or_ne steps 0 with rfl | moved
  · simp
  · have far : spacing ≤ |steps * spacing| := by
      have whole : (1 : ℝ) ≤ |(steps : ℝ)| := by exact_mod_cast Int.one_le_abs moved
      rw [abs_mul]
      calc spacing ≤ |spacing| := le_abs_self spacing
        _ = 1 * |spacing| := (one_mul _).symm
        _ ≤ |(steps : ℝ)| * |spacing| := mul_le_mul_of_nonneg_right whole (abs_nonneg _)
    calc |residual| ≤ |steps * spacing| - |residual| := by linarith
      _ ≤ |steps * spacing + residual| := by
        simpa using abs_sub_abs_le_abs_sub (steps * spacing) (-residual)
      _ = |residual + steps * spacing| := by rw [add_comm]

theorem spacing_pos (quarter : lattice.spacing = Real.pi / 2) : 0 < lattice.spacing := by
  rw [quarter]
  exact Real.pi_div_two_pos

theorem isNearest_round (quarter : lattice.spacing = Real.pi / 2) (angle : ℝ) :
    IsNearest lattice.spacing angle (lattice.round angle).1 (lattice.round angle).2 := by
  rcases round_mem (spacing_pos quarter) angle with ⟨parts, above, below⟩
  rcases Scalar.exists_normalizeAngle_eq angle with ⟨turns, normalized⟩
  refine ⟨⟨turns, by linarith⟩, above, below, ?_⟩
  intro other turns' rest angle_eq
  have rest_eq : rest = (lattice.round angle).2 +
      (((lattice.round angle).1 - other + 4 * (turns - turns') : ℤ) : ℝ) * lattice.spacing := by
    push_cast
    rw [quarter] at parts angle_eq ⊢
    linarith
  rw [rest_eq]
  exact abs_le_abs_add_mul above below _

theorem natAbs_round_le (quarter : lattice.spacing = Real.pi / 2) (angle : ℝ) :
    (lattice.round angle).1.natAbs ≤ 2 := by
  rcases round_mem (spacing_pos quarter) angle with ⟨parts, above, below⟩
  rcases Scalar.normalizeAngle_mem angle with ⟨lower, upper⟩
  have lower' : (-3 : ℝ) * lattice.spacing < (lattice.round angle).1 * lattice.spacing := by
    linarith
  have upper' : (lattice.round angle).1 * lattice.spacing < (3 : ℝ) * lattice.spacing := by
    linarith
  have least := lt_of_mul_lt_mul_right lower' (spacing_pos quarter).le
  have most := lt_of_mul_lt_mul_right upper' (spacing_pos quarter).le
  have least' : -3 < (lattice.round angle).1 := by exact_mod_cast least
  have most' : (lattice.round angle).1 < 3 := by exact_mod_cast most
  omega

theorem residualSize_eq (residual : ℝ) :
    residualSize residual = if |residual| < 1e-12 then 0 else |residual| := by
  have zero : (0.0 : ℝ) = 0 := by norm_num
  simp only [residualSize, zero]
  rfl

theorem count_of_angle {gate : Gate ℝ} {angle : ℝ} (turn : gate = .rz angle ∨ gate = .p angle)
    (tolerance : ℝ) :
    lattice.count gate tolerance =
      if tolerance < residualSize (lattice.round angle).2 then
        .error (.toleranceExceeded gate.name (residualSize (lattice.round angle).2) tolerance)
      else .ok ((lattice.round angle).1, residualSize (lattice.round angle).2) := by
  rcases turn with rfl | rfl <;> rfl

/--
A rotation about the third axis or a phase becomes the nearest number of exchanges of an Ising
pair, clockwise for positive numbers, if what remains of its angle is within the tolerance, and is
refused with what remains otherwise.
-/
theorem exists_braid_nearest (own : ofAnyon? .ising = some lattice) {gate : Gate ℝ} {angle : ℝ}
    (turn : gate = .rz angle ∨ gate = .p angle) {qubit strands : ℕ} (room : qubit + 2 ≤ strands)
    {tolerance : ℝ} (nonneg : 0 ≤ tolerance) :
    lattice.spacing = Real.pi / 2 ∧
    ∃ (count : ℤ) (residual error : ℝ), count.natAbs ≤ 2 ∧
      IsNearest lattice.spacing angle count residual ∧
      error = (if |residual| < 1e-12 then 0 else |residual|) ∧
      (error ≤ tolerance → ∃ word,
        lattice.braid gate qubit strands tolerance = .ok ⟨word, error⟩ ∧
        word.strands = strands ∧ word.length = count.natAbs ∧
        ∀ generator ∈ word.generators, generator.index = qubit ∧
          (0 < count → generator.orientation = .clockwise) ∧
          (count < 0 → generator.orientation = .counterClockwise)) ∧
      (tolerance < error → lattice.braid gate qubit strands tolerance =
        .error (.toleranceExceeded gate.name error tolerance)) := by
  have quarter : lattice.spacing = Real.pi / 2 := by
    cases own
    exact Anyon.relativePhase_ising
  have counted : lattice.braid gate qubit strands tolerance = _ :=
    braid_eq (checkTolerance_of_nonneg nonneg) room
  rw [count_of_angle turn] at counted
  refine ⟨quarter, (lattice.round angle).1, (lattice.round angle).2,
    residualSize (lattice.round angle).2, natAbs_round_le quarter angle,
    isNearest_round quarter angle, residualSize_eq _, ?_, ?_⟩
  · intro near
    rw [if_neg (not_lt.2 near)] at counted
    refine ⟨_, counted, rfl, List.length_replicate, ?_⟩
    intro generator listed
    rw [List.eq_of_mem_replicate listed]
    refine ⟨rfl, fun positive => if_pos positive, fun negative => if_neg (by omega)⟩
  · intro far
    rw [if_pos far] at counted
    exact counted

/-- Half-way between one and two exchanges backwards, the remainder is the positive one. -/
theorem exists_braid_nearest_halfway :
    ∃ lattice : PhaseLattice ℝ, ofAnyon? .ising = some lattice ∧
      (∃ word, lattice.braid (.rz (-3 * Real.pi / 4)) 1 3 1 = .ok ⟨word, Real.pi / 4⟩ ∧
        word.length = 2 ∧ ∀ generator ∈ word.generators, generator.index = 1) ∧
      lattice.braid (.rz (-3 * Real.pi / 4)) 1 3 0 =
        .error (.toleranceExceeded "rz" (Real.pi / 4) 0) := by
  have pi_gt := Real.pi_gt_three
  have pi_lt := Real.pi_lt_four
  have halfway {count : ℤ} {residual : ℝ}
      (nearest : IsNearest (Real.pi / 2) (-3 * Real.pi / 4) count residual)
      (few : count.natAbs ≤ 2) : residual = Real.pi / 4 ∧ count.natAbs = 2 := by
    rcases nearest.congruent with ⟨turns, angle_eq⟩
    have lower : (-3 : ℝ) < (count + 4 * turns : ℤ) := by
      push_cast
      nlinarith [nearest.below]
    have upper : ((count + 4 * turns : ℤ) : ℝ) < -1 := by
      push_cast
      nlinarith [nearest.above]
    have lower' : -3 < count + 4 * turns := by exact_mod_cast lower
    have upper' : count + 4 * turns < -1 := by exact_mod_cast upper
    have steps : count + 4 * turns = -2 := by omega
    have steps' : (count : ℝ) + 4 * turns = -2 := by exact_mod_cast steps
    refine ⟨?_, by omega⟩
    linear_combination -angle_eq - Real.pi / 2 * steps'
  have own : ofAnyon? .ising = some (⟨.ising, Anyon.ising.model.relativePhase⟩ : PhaseLattice ℝ) :=
    rfl
  refine ⟨_, own, ?_, ?_⟩
  · rcases exists_braid_nearest own (.inl rfl) (le_refl 3) zero_le_one with
      ⟨quarter, count, residual, error, few, nearest, error_eq, succeeds, -⟩
    rw [quarter] at nearest
    rcases halfway nearest few with ⟨rfl, two⟩
    rw [abs_of_pos (by linarith), if_neg (by norm_num; linarith)] at error_eq
    subst error_eq
    rcases succeeds (by linarith) with ⟨word, compiled, -, length_eq, each⟩
    exact ⟨word, compiled, length_eq.trans two, fun generator listed => (each generator listed).1⟩
  · rcases exists_braid_nearest own (.inl rfl) (le_refl 3) (le_refl 0) with
      ⟨quarter, count, residual, error, few, nearest, error_eq, -, fails⟩
    rw [quarter] at nearest
    rcases halfway nearest few with ⟨rfl, -⟩
    rw [abs_of_pos (by linarith), if_neg (by norm_num; linarith)] at error_eq
    subst error_eq
    exact fails (by linarith)

end PhaseLattice

end Anyonic
