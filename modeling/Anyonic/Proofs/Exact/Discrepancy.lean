import Mathlib
import Anyonic.Proofs.Exact.Phases

/-!
# The discrepancy of unitary matrices

In exact arithmetic the discrepancy is read off the overlap of two matrices, the trace of the one
undone and then the other done.  A change of phase turns the overlap without changing its size, and
so does an exchange of the two matrices; a matrix in front of both leaves it as it is.

Turn one of two unitary matrices by the phase that brings their overlap onto the positive real
axis.  The squares of the differences of their entries then add up to four times the discrepancy.
So it is never negative, and it vanishes only between matrices that agree up to a phase.
-/

namespace Anyonic

open Matrix

namespace QubitMatrix

variable {u v w : QubitMatrix ℝ} {factor : ℂ}

/-- Every entry times a complex number. -/
def turned (factor : ℂ) (u : QubitMatrix ℝ) : QubitMatrix ℝ :=
  ⟨u.a.turned factor, u.b.turned factor, u.c.turned factor, u.d.turned factor⟩

@[simp] theorem toMatrix_turned (factor : ℂ) (u : QubitMatrix ℝ) :
    (u.turned factor).toMatrix = factor • u.toMatrix := by
  ext row column
  cases row <;> cases column <;> rfl

theorem toMatrix_injective : Function.Injective toMatrix := by
  intro u v same
  have entry (row column : Bool) := congrFun (congrFun same row) column
  rcases u with ⟨a, b, c, d⟩
  rcases v with ⟨a', b', c', d'⟩
  congr 1
  · exact Amplitude.toComplex_injective (entry false false)
  · exact Amplitude.toComplex_injective (entry false true)
  · exact Amplitude.toComplex_injective (entry true false)
  · exact Amplitude.toComplex_injective (entry true true)

/-- The trace of one matrix undone and another done. -/
def overlap (u v : QubitMatrix ℝ) : ℂ := (u.toMatrixᴴ * v.toMatrix).trace

theorem discrepancy_eq (u v : QubitMatrix ℝ) : u.discrepancy v = 1 - ‖u.overlap v‖ / 2 := by
  have trace_eq (w : QubitMatrix ℝ) : w.trace.toComplex = w.toMatrix.trace := by
    rw [Matrix.trace, Fintype.sum_bool, add_comm]
    rfl
  rw [discrepancy, Amplitude.norm_eq, trace_eq, toMatrix_mul, toMatrix_dagger, overlap]
  norm_num

theorem overlap_swap (u v : QubitMatrix ℝ) : v.overlap u = star (u.overlap v) := by
  rw [overlap, overlap, ← trace_conjTranspose, conjTranspose_mul, conjTranspose_conjTranspose]

theorem overlap_turned_left (factor : ℂ) (u v : QubitMatrix ℝ) :
    (u.turned factor).overlap v = star factor * u.overlap v := by
  simp [overlap]

theorem overlap_turned_right (factor : ℂ) (u v : QubitMatrix ℝ) :
    u.overlap (v.turned factor) = factor * u.overlap v := by
  simp [overlap]

theorem IsUnitary.overlap_mul (unitary : w.IsUnitary) (u v : QubitMatrix ℝ) :
    (w * u).overlap (w * v) = u.overlap v := by
  have undone : w.toMatrixᴴ * w.toMatrix = 1 := Matrix.mem_unitaryGroup_iff'.1 unitary
  have between : (w.toMatrix * u.toMatrix)ᴴ * (w.toMatrix * v.toMatrix) =
      u.toMatrixᴴ * v.toMatrix := by
    calc (w.toMatrix * u.toMatrix)ᴴ * (w.toMatrix * v.toMatrix)
        = u.toMatrixᴴ * (w.toMatrixᴴ * w.toMatrix) * v.toMatrix := by
          rw [conjTranspose_mul]
          simp only [Matrix.mul_assoc]
      _ = u.toMatrixᴴ * v.toMatrix := by rw [undone, Matrix.mul_one]
  rw [overlap, toMatrix_mul, toMatrix_mul, between, overlap]

theorem IsUnitary.overlap_self (unitary : u.IsUnitary) : u.overlap u = 2 := by
  have undone : u.toMatrixᴴ * u.toMatrix = 1 := Matrix.mem_unitaryGroup_iff'.1 unitary
  simp [overlap, undone]

/-- The squares of the differences between a matrix and a turned one, added up. -/
theorem IsUnitary.trace_sub_turned (unitary : u.IsUnitary) (unitary' : v.IsUnitary)
    (unit : ‖factor‖ = 1) :
    ((v.toMatrix - factor • u.toMatrix)ᴴ * (v.toMatrix - factor • u.toMatrix)).trace =
      4 - 2 * (star factor * u.overlap v).re := by
  have cancels : star factor * factor = 1 := by
    rw [Complex.star_def, Complex.conj_mul', unit]
    norm_num
  have own : (u.toMatrixᴴ * u.toMatrix).trace = 2 := unitary.overlap_self
  have own' : (v.toMatrixᴴ * v.toMatrix).trace = 2 := unitary'.overlap_self
  have forth : (u.toMatrixᴴ * v.toMatrix).trace = u.overlap v := rfl
  have back : (v.toMatrixᴴ * u.toMatrix).trace = star (u.overlap v) := overlap_swap u v
  have twice := Complex.add_conj (star factor * u.overlap v)
  simp only [conjTranspose_sub, conjTranspose_smul, Matrix.sub_mul, Matrix.mul_sub,
    Matrix.smul_mul, Matrix.mul_smul, trace_sub, trace_smul, smul_eq_mul, own, own', forth, back]
  simp only [map_mul, Complex.star_def, Complex.conj_conj] at twice cancels ⊢
  push_cast at twice
  linear_combination 2 * cancels - twice

/-- Turned by the right phase, a unitary matrix is as far from another as the discrepancy says. -/
theorem IsUnitary.exists_trace_sub_turned (unitary : u.IsUnitary) (unitary' : v.IsUnitary) :
    ∃ factor : ℂ, ‖factor‖ = 1 ∧
      ((v.toMatrix - factor • u.toMatrix)ᴴ * (v.toMatrix - factor • u.toMatrix)).trace =
        4 * (u.discrepancy v : ℂ) := by
  rcases Complex.exists_norm_eq_mul_self (u.overlap v) with ⟨phase, unit, overlap_eq⟩
  have unit' : ‖star phase‖ = 1 := (norm_star phase).trans unit
  refine ⟨star phase, unit', ?_⟩
  rw [unitary.trace_sub_turned unitary' unit', star_star, ← overlap_eq, Complex.ofReal_re,
    discrepancy_eq]
  push_cast
  ring

open ComplexOrder in
theorem IsUnitary.discrepancy_nonneg (unitary : u.IsUnitary) (unitary' : v.IsUnitary) :
    0 ≤ u.discrepancy v := by
  rcases unitary.exists_trace_sub_turned unitary' with ⟨factor, -, trace_eq⟩
  have nonneg := (posSemidef_conjTranspose_mul_self
    (v.toMatrix - factor • u.toMatrix)).trace_nonneg
  rw [trace_eq] at nonneg
  have nonneg' : 0 ≤ 4 * u.discrepancy v := by exact_mod_cast nonneg
  linarith

theorem discrepancy_le_one (u v : QubitMatrix ℝ) : u.discrepancy v ≤ 1 := by
  have size := norm_nonneg (u.overlap v)
  rw [discrepancy_eq]
  linarith

theorem IsUnitary.discrepancy_turned_self (unitary : u.IsUnitary) (unit : ‖factor‖ = 1) :
    u.discrepancy (u.turned factor) = 0 := by
  rw [discrepancy_eq, overlap_turned_right, unitary.overlap_self, norm_mul, unit]
  norm_num

open ComplexOrder in
theorem IsUnitary.exists_eq_turned (unitary : u.IsUnitary) (unitary' : v.IsUnitary)
    (agrees : u.discrepancy v = 0) : ∃ factor : ℂ, ‖factor‖ = 1 ∧ v = u.turned factor := by
  rcases unitary.exists_trace_sub_turned unitary' with ⟨factor, unit, trace_eq⟩
  refine ⟨factor, unit, toMatrix_injective ?_⟩
  rw [agrees, Complex.ofReal_zero, mul_zero, trace_conjTranspose_mul_self_eq_zero_iff] at trace_eq
  rw [toMatrix_turned]
  exact sub_eq_zero.1 trace_eq

theorem distance_eq (u v : QubitMatrix ℝ) :
    u.distance v = if u.discrepancy v < 1e-12 then 0 else u.discrepancy v := by
  have zero : (0.0 : ℝ) = 0 := by norm_num
  have floor_eq : (discrepancyFloor : ℝ) = 1e-12 := rfl
  simp only [distance, zero, floor_eq]
  by_cases small : u.discrepancy v < 1e-12
  · rw [if_pos small, if_neg (not_le.2 small)]
  · rw [if_neg small, if_pos (not_lt.1 small)]

/-- The distance to a matrix does not depend on its phase. -/
theorem SamePhase.distance_eq (same : SamePhase v w) (u : QubitMatrix ℝ) :
    u.distance v = u.distance w := by
  rcases same with ⟨factor, unit, v_eq⟩
  have turned_eq : v = w.turned factor := toMatrix_injective (by rw [v_eq, toMatrix_turned])
  rw [QubitMatrix.distance_eq, QubitMatrix.distance_eq, discrepancy_eq, discrepancy_eq, turned_eq,
    overlap_turned_right, norm_mul, unit, one_mul]

theorem IsUnitary.distance_self (unitary : u.IsUnitary) : u.distance u = 0 := by
  rw [distance_eq, discrepancy_eq, unitary.overlap_self]
  norm_num

/--
The discrepancy of unitary matrices, from which the distance is taken, is a number between zero
and one that does not depend on their order, on their phases or on a unitary matrix in front of
both.  It is zero exactly between matrices that agree up to a phase.
-/
theorem IsUnitary.discrepancy_phase_blind (unitary : u.IsUnitary) (unitary' : v.IsUnitary) :
    u.distance v = (if u.discrepancy v < 1e-12 then 0 else u.discrepancy v) ∧
    0 ≤ u.discrepancy v ∧ u.discrepancy v ≤ 1 ∧
    u.discrepancy v = v.discrepancy u ∧
    (∀ factor : ℂ, ‖factor‖ = 1 → (u.turned factor).discrepancy v = u.discrepancy v ∧
      u.discrepancy (v.turned factor) = u.discrepancy v) ∧
    (∀ w : QubitMatrix ℝ, w.IsUnitary → (w * u).discrepancy (w * v) = u.discrepancy v) ∧
    (u.discrepancy v = 0 ↔ ∃ factor : ℂ, ‖factor‖ = 1 ∧ v = u.turned factor) := by
  refine ⟨distance_eq u v, unitary.discrepancy_nonneg unitary', discrepancy_le_one u v, ?_, ?_, ?_,
    unitary.exists_eq_turned unitary', ?_⟩
  · rw [discrepancy_eq, discrepancy_eq, overlap_swap, norm_star]
  · intro factor unit
    simp only [discrepancy_eq, overlap_turned_left, overlap_turned_right, norm_mul, norm_star, unit,
      one_mul, and_self]
  · intro w unitary''
    rw [discrepancy_eq, discrepancy_eq, unitary''.overlap_mul]
  · rintro ⟨factor, unit, rfl⟩
    exact unitary.discrepancy_turned_self unit

/-- A rotation about the third axis and the phase of the same angle agree up to half that phase. -/
theorem discrepancy_phase_blind_rotation :
    let rotation : QubitMatrix ℝ := rotationZ 1
    let shift : QubitMatrix ℝ := phaseShift 1
    rotation.IsUnitary ∧ shift.IsUnitary ∧
      (∃ factor : ℂ, ‖factor‖ = 1 ∧ shift = rotation.turned factor) ∧
      rotation.discrepancy shift = 0 ∧ rotation.distance shift = 0 := by
  intro rotation shift
  have one_eq : (Amplitude.one : Amplitude ℝ) = .phase 0 := by
    apply Amplitude.toComplex_injective
    simp
  have unitary : rotation.IsUnitary := isUnitary_diagonal _ _
  have unitary' : shift.IsUnitary := by
    simp only [shift, phaseShift, one_eq]
    exact isUnitary_diagonal 0 1
  have agree : ∃ factor : ℂ, ‖factor‖ = 1 ∧ shift = rotation.turned factor := by
    refine ⟨_, Complex.norm_exp_ofReal_mul_I (1 / 2), toMatrix_injective ?_⟩
    have two : (2.0 : ℂ) = 2 := by norm_num
    have halves : (2⁻¹ : ℂ) * Complex.I + 2⁻¹ * Complex.I = Complex.I := by ring
    have opposite : (2⁻¹ : ℂ) * Complex.I + -1 / 2 * Complex.I = 0 := by ring
    simp only [toMatrix_turned, shift, rotation, phaseShift, rotationZ, toMatrix_diagonal,
      ← diagonal_smul]
    congr 1
    funext value
    cases value with
    | false => simp [← Complex.exp_add, two, opposite]
    | true => simp [← Complex.exp_add, two, halves]
  rcases unitary.discrepancy_phase_blind unitary' with ⟨distance_eq, -, -, -, -, -, zero_iff⟩
  have zero := zero_iff.2 agree
  refine ⟨unitary, unitary', agree, zero, ?_⟩
  rw [distance_eq, zero]
  norm_num

end QubitMatrix

end Anyonic
