import Mathlib
import Anyonic.Proofs.Exact.Matrix
import Anyonic.Proofs.Search.BaseSet

/-!
# Exact matrices up to a global phase

In exact arithmetic the fingerprint of a unitary matrix does not change with its global phase, and
the matrices of the letters are unitary, each of them the inverse of that of the opposite letter.
Whether fingerprints tell the words of a base set apart is therefore only a question of whether
words with equal fingerprints agree up to a global phase.
-/

namespace Anyonic

open Complex (I exp)

theorem mul_star_of_norm_eq_one {factor : ℂ} (unit : ‖factor‖ = 1) : factor * star factor = 1 := by
  rw [Complex.star_def, Complex.mul_conj', unit]
  norm_num

namespace Amplitude

theorem toComplex_injective : Function.Injective toComplex := by
  rintro ⟨re, im⟩ ⟨re', im'⟩ same
  cases same
  rfl

@[simp] theorem toComplex_mul (z w : Amplitude ℝ) :
    (z * w).toComplex = z.toComplex * w.toComplex := rfl

@[simp] theorem toComplex_add (z w : Amplitude ℝ) :
    (z + w).toComplex = z.toComplex + w.toComplex := rfl

@[simp] theorem toComplex_conj (z : Amplitude ℝ) : z.conj.toComplex = star z.toComplex := rfl

theorem norm_eq (z : Amplitude ℝ) : z.norm = ‖z.toComplex‖ := by
  rw [Complex.norm_eq_sqrt_sq_add_sq]
  rfl

theorem toComplex_divReal (z : Amplitude ℝ) (divisor : ℝ) :
    (z.divReal divisor).toComplex = z.toComplex / divisor := by
  apply Complex.ext <;> simp [toComplex, divReal, Complex.div_ofReal_re, Complex.div_ofReal_im]

end Amplitude

namespace Amplitude

/-- An amplitude times a complex number. -/
def turned (factor : ℂ) (z : Amplitude ℝ) : Amplitude ℝ :=
  ⟨(factor * z.toComplex).re, (factor * z.toComplex).im⟩

@[simp] theorem toComplex_turned (factor : ℂ) (z : Amplitude ℝ) :
    (z.turned factor).toComplex = factor * z.toComplex := rfl

theorem norm_turned {factor : ℂ} (unit : ‖factor‖ = 1) (z : Amplitude ℝ) :
    (z.turned factor).norm = z.norm := by
  rw [norm_eq, norm_eq, toComplex_turned, norm_mul, unit, one_mul]

end Amplitude

namespace QubitMatrix

variable {u v w : QubitMatrix ℝ}

theorem toMatrix_mul (u v : QubitMatrix ℝ) : (u * v).toMatrix = u.toMatrix * v.toMatrix := by
  ext row column
  rw [Matrix.mul_apply, Fintype.sum_bool, add_comm]
  cases row <;> cases column <;> rfl

theorem toMatrix_dagger (u : QubitMatrix ℝ) : u.dagger.toMatrix = u.toMatrix.conjTranspose := by
  ext row column
  cases row <;> cases column <;> rfl

/-- Two matrices that differ by a global phase. -/
def SamePhase (u v : QubitMatrix ℝ) : Prop :=
  ∃ factor : ℂ, ‖factor‖ = 1 ∧ u.toMatrix = factor • v.toMatrix

theorem SamePhase.mul_left (same : SamePhase u v) (w : QubitMatrix ℝ) :
    SamePhase (w * u) (w * v) := by
  rcases same with ⟨factor, unit, u_eq⟩
  refine ⟨factor, unit, ?_⟩
  rw [toMatrix_mul, toMatrix_mul, u_eq, mul_smul_comm]

theorem samePhase_of_toMatrix_eq (same : u.toMatrix = v.toMatrix) : SamePhase u v :=
  ⟨1, norm_one, by rw [one_smul, same]⟩

theorem entries_of_toMatrix_eq_smul {factor : ℂ} (u_eq : u.toMatrix = factor • v.toMatrix) :
    u.entries = v.entries.map (Amplitude.turned factor) := by
  have entry (row column : Bool) := congrFun (congrFun u_eq row) column
  simp only [entries, List.map_cons, List.map_nil, List.cons.injEq, and_true]
  refine ⟨?_, ?_, ?_, ?_⟩ <;> apply Amplitude.toComplex_injective
  · exact entry false false
  · exact entry false true
  · exact entry true false
  · exact entry true true

/-- A matrix whose product with its conjugate transpose is the identity. -/
def IsUnitary (u : QubitMatrix ℝ) : Prop := u.toMatrix ∈ Matrix.unitaryGroup Bool ℂ

theorem IsUnitary.mul (unitary : u.IsUnitary) (unitary' : v.IsUnitary) : (u * v).IsUnitary := by
  rw [IsUnitary, toMatrix_mul]
  exact mul_mem unitary unitary'

theorem IsUnitary.dagger (unitary : u.IsUnitary) : u.dagger.IsUnitary := by
  rw [IsUnitary, toMatrix_dagger]
  exact Unitary.star_mem unitary

theorem IsUnitary.dagger_mul (unitary : u.IsUnitary) : (u.dagger * u).toMatrix = 1 := by
  rw [toMatrix_mul, toMatrix_dagger]
  exact Matrix.mem_unitaryGroup_iff'.1 unitary

theorem IsUnitary.mul_dagger (unitary : u.IsUnitary) : (u * u.dagger).toMatrix = 1 := by
  rw [toMatrix_mul, toMatrix_dagger]
  exact Matrix.mem_unitaryGroup_iff.1 unitary

/-- The first column of a unitary matrix has length one. -/
theorem IsUnitary.column (unitary : u.IsUnitary) : u.a.norm ^ 2 + u.c.norm ^ 2 = 1 := by
  have entry := congrFun (congrFun unitary.dagger_mul false) false
  have column : (star u.a.toComplex * u.a.toComplex + star u.c.toComplex * u.c.toComplex : ℂ) = 1 :=
    entry
  rw [Amplitude.norm_eq, Amplitude.norm_eq]
  simp only [Complex.star_def, Complex.conj_mul'] at column
  exact_mod_cast column

/-- Some entry of a unitary matrix is large enough to fix a phase. -/
theorem IsUnitary.exists_notable (unitary : u.IsUnitary) :
    ∃ z, u.entries.find? (fun z => phaseFloor < z.norm) = some z ∧ z.norm ≠ 0 := by
  have floor_eq : (phaseFloor : ℝ) = 1e-6 := rfl
  have notable : (u.entries.find? fun z => phaseFloor < z.norm).isSome := by
    rw [List.find?_isSome]
    by_contra none
    simp only [entries, List.mem_cons, List.not_mem_nil, or_false, decide_eq_true_eq, not_exists,
      not_and, not_lt, floor_eq] at none
    have first := none u.a (.inl rfl)
    have second := none u.c (.inr (.inr (.inl rfl)))
    have nonneg : 0 ≤ u.a.norm := Real.sqrt_nonneg _
    have nonneg' : 0 ≤ u.c.norm := Real.sqrt_nonneg _
    have column := unitary.column
    norm_num at first second
    nlinarith
  rcases Option.isSome_iff_exists.1 notable with ⟨z, found⟩
  refine ⟨z, found, ?_⟩
  have large := List.find?_some found
  rw [decide_eq_true_eq, floor_eq] at large
  norm_num at large
  linarith

theorem IsUnitary.phaseReference_turned (unitary : v.IsUnitary) {factor : ℂ} (unit : ‖factor‖ = 1)
    (u_eq : u.toMatrix = factor • v.toMatrix) :
    u.phaseReference.toComplex = star factor * v.phaseReference.toComplex := by
  rcases unitary.exists_notable with ⟨z, found, -⟩
  have same : ((fun z : Amplitude ℝ => decide (phaseFloor < z.norm)) ∘ Amplitude.turned factor) =
      fun z => decide (phaseFloor < z.norm) := by
    funext z
    rw [Function.comp_apply, Amplitude.norm_turned unit]
  have found' : u.entries.find? (fun z => phaseFloor < z.norm) = some (z.turned factor) := by
    rw [entries_of_toMatrix_eq_smul u_eq, List.find?_map, same, found]
    rfl
  simp only [phaseReference, found, found', Amplitude.toComplex_divReal, Amplitude.toComplex_conj,
    Amplitude.toComplex_turned, Amplitude.norm_turned unit, star_mul']
  rw [mul_div_assoc]

/-- The fingerprint of a unitary matrix does not see its global phase. -/
theorem IsUnitary.phaseKey_eq (unitary : v.IsUnitary) (same : SamePhase u v) :
    u.phaseKey = v.phaseKey := by
  rcases same with ⟨factor, unit, u_eq⟩
  have reference_eq := unitary.phaseReference_turned unit u_eq
  have cancels := mul_star_of_norm_eq_one unit
  have entry_eq (z : Amplitude ℝ) :
      z.turned factor * u.phaseReference = z * v.phaseReference := by
    apply Amplitude.toComplex_injective
    rw [Amplitude.toComplex_mul, Amplitude.toComplex_turned, reference_eq, Amplitude.toComplex_mul]
    linear_combination (z.toComplex * v.phaseReference.toComplex) * cancels
  simp only [phaseKey]
  rw [entries_of_toMatrix_eq_smul u_eq, List.flatMap_map]
  simp only [entry_eq]

end QubitMatrix

namespace QubitMatrix

theorem isUnitary_identity : (identity : QubitMatrix ℝ).IsUnitary := by
  rw [IsUnitary, toMatrix_identity]
  exact one_mem _

theorem isUnitary_diagonal (first second : ℝ) :
    (diagonal (.phase first) (.phase second) : QubitMatrix ℝ).IsUnitary := by
  have unit (angle : ℝ) : star (exp (angle * I)) * exp (angle * I) = 1 := by
    rw [Complex.star_def, Complex.conj_mul', Complex.norm_exp_ofReal_mul_I]
    norm_num
  rw [IsUnitary, Matrix.mem_unitaryGroup_iff', toMatrix_diagonal, Matrix.star_eq_conjTranspose,
    Matrix.diagonal_conjTranspose, Matrix.diagonal_mul_diagonal, ← Matrix.diagonal_one]
  congr 1
  funext value
  cases value <;> simpa using unit _

/-- A change of basis that is its own inverse, with real rows of length one. -/
theorem isUnitary_reflection {first second : ℝ} (row : first ^ 2 + second ^ 2 = 1) :
    (⟨.ofReal first, .ofReal second, .ofReal second, -.ofReal first⟩ :
      QubitMatrix ℝ).IsUnitary := by
  have row' : (first : ℂ) ^ 2 + second ^ 2 = 1 := by exact_mod_cast row
  rw [IsUnitary, Matrix.mem_unitaryGroup_iff']
  ext left right
  rw [Matrix.mul_apply, Fintype.sum_bool]
  cases left <;> cases right <;> simp [toMatrix]
  · linear_combination row'
  · ring
  · ring
  · linear_combination row'

end QubitMatrix

namespace Anyon

theorem isUnitary_basisChange (anyon : Anyon) :
    (anyon.model.basisChange : QubitMatrix ℝ).IsUnitary := by
  cases anyon with
  | ising =>
      apply QubitMatrix.isUnitary_reflection
      norm_num [div_pow]
  | fibonacci =>
      have golden : (goldenRatio : ℝ) ^ 2 = goldenRatio + 1 := by
        norm_num [goldenRatio]
      have positive : (0 : ℝ) < goldenRatio := by
        have root := Real.sqrt_nonneg 5
        norm_num [goldenRatio]
        linarith
      apply QubitMatrix.isUnitary_reflection
      simp only [Scalar.exact_sqrt, div_pow, Real.sq_sqrt positive.le]
      norm_num
      field_simp
      linarith

/-- One exchange of exact anyons is exactly a quarter turn. -/
theorem relativePhase_ising : (Anyon.ising.model.relativePhase : ℝ) = Real.pi / 2 := by
  have pi_pos := Real.pi_pos
  have quotient (first second : ℝ) :
      (Amplitude.phase first / Amplitude.phase second : Amplitude ℝ) =
        ⟨Real.cos (first - second), Real.sin (first - second)⟩ := by
    have unit : (Amplitude.phase second : Amplitude ℝ).normSq = 1 := by
      norm_num [Amplitude.normSq, Amplitude.phase, Amplitude.polar, ← sq]
    change Amplitude.mk _ _ = _
    rw [unit, Real.cos_sub, Real.sin_sub]
    norm_num [Amplitude.phase, Amplitude.polar]
  have relative : (Anyon.ising.model.relativePhase : ℝ) = Scalar.normalizeAngle
      (Amplitude.phase (3.0 * Scalar.pi / 8.0) / .phase (-Scalar.pi / 8.0) : Amplitude ℝ).arg := rfl
  have angles : 3.0 * (Scalar.pi : ℝ) / 8.0 - -Scalar.pi / 8.0 = Real.pi / 2 := by
    norm_num
    ring
  have direction : Amplitude.arg (⟨0, 1⟩ : Amplitude ℝ) = Real.pi / 2 := Complex.arg_I
  rw [relative, quotient, angles, Real.cos_pi_div_two, Real.sin_pi_div_two, direction]
  exact Scalar.normalizeAngle_eq_self (by linarith) (by linarith)

end Anyon

namespace LetterMatrices

variable (anyon : Anyon)

theorem isUnitary_first : (ofAnyon anyon : LetterMatrices ℝ).first.IsUnitary := by
  cases anyon <;> exact QubitMatrix.isUnitary_diagonal _ _

theorem isUnitary_second : (ofAnyon anyon : LetterMatrices ℝ).second.IsUnitary := by
  have basisChange := anyon.isUnitary_basisChange
  exact (basisChange.mul (isUnitary_first anyon)).mul basisChange.dagger

theorem isUnitary_get (letter : Letter) :
    ((ofAnyon anyon : LetterMatrices ℝ).get letter).IsUnitary := by
  cases letter with
  | first => exact isUnitary_first anyon
  | firstInverse => exact (isUnitary_first anyon).dagger
  | second => exact isUnitary_second anyon
  | secondInverse => exact (isUnitary_second anyon).dagger

/-- A letter is undone by its inverse. -/
theorem get_inverse_mul (letter : Letter) :
    ((ofAnyon anyon : LetterMatrices ℝ).get letter.inverse *
      (ofAnyon anyon).get letter).toMatrix = 1 := by
  cases letter with
  | first => exact (isUnitary_first anyon).dagger_mul
  | firstInverse => exact (isUnitary_first anyon).mul_dagger
  | second => exact (isUnitary_second anyon).dagger_mul
  | secondInverse => exact (isUnitary_second anyon).mul_dagger

end LetterMatrices

theorem BaseWord.isUnitary_ofLetters (anyon : Anyon) (letters : List Letter) :
    (ofLetters anyon letters : BaseWord ℝ).matrix.IsUnitary := by
  induction letters using List.reverseRecOn with
  | nil => exact QubitMatrix.isUnitary_identity
  | append_singleton letters letter ih =>
      rw [ofLetters_concat]
      exact (LetterMatrices.isUnitary_get anyon letter).mul ih

/-- In exact arithmetic, fingerprints are faithful if equal ones belong to words that agree up to a
global phase. -/
theorem FaithfulKeys.exact {anyon : Anyon} {length : ℕ}
    (samePhase : ∀ first second : List Letter, first.length ≤ length → second.length ≤ length →
      (BaseWord.ofLetters (α := ℝ) anyon first).key =
        (BaseWord.ofLetters (α := ℝ) anyon second).key →
      QubitMatrix.SamePhase (BaseWord.ofLetters anyon first).matrix
        (BaseWord.ofLetters anyon second).matrix) :
    FaithfulKeys anyon length QubitMatrix.SamePhase where
  key_eq_iff := by
    intro first second first_le second_le
    refine ⟨samePhase first second first_le second_le, ?_⟩
    exact (BaseWord.isUnitary_ofLetters anyon second).phaseKey_eq
  agree_concat := by
    intro first second letter _ _ same
    rw [BaseWord.ofLetters_concat, BaseWord.ofLetters_concat]
    exact same.mul_left _
  agree_concat_inverse := by
    intro letters letter _
    apply QubitMatrix.samePhase_of_toMatrix_eq
    have undone := LetterMatrices.get_inverse_mul anyon letter.inverse
    rw [Letter.inverse_inverse, QubitMatrix.toMatrix_mul] at undone
    rw [BaseWord.ofLetters_concat, BaseWord.ofLetters_concat, BaseWord.push, BaseWord.push,
      QubitMatrix.toMatrix_mul, QubitMatrix.toMatrix_mul, ← mul_assoc, undone, one_mul]

end Anyonic
