import Mathlib
import Anyonic.Proofs.Exact.Discrepancy
import Anyonic.Proofs.Search.Completeness

/-!
# The Hadamard matrix among Ising words

The Hadamard matrix is as far as possible from the identity, and halfway to it from a quarter turn
about the third axis.  One exchange of Ising anyons is such a quarter turn, so that a search for the
Hadamard matrix with a tolerance of one half passes the empty word and stops at words of one letter.
-/

namespace Anyonic

open Complex (I exp)

namespace QubitMatrix

theorem toMatrix_hadamard :
    (hadamard : QubitMatrix ℝ).toMatrix = (Real.sqrt 2 : ℂ)⁻¹ • signMatrix :=
  Gate.wireMatrix_h

/-- How far the Hadamard matrix is from a turn about the third axis. -/
theorem discrepancy_hadamard {turn : QubitMatrix ℝ} {factor : ℂ} (unit : ‖factor‖ = 1) {angle : ℝ}
    (turn_eq : turn.toMatrix = factor • phaseMatrix angle) :
    hadamard.discrepancy turn = 1 - (Real.sqrt 2)⁻¹ * ‖1 - exp (angle * I)‖ / 2 := by
  have trace_eq : (signMatrix * phaseMatrix angle).trace = 1 - exp (angle * I) := by
    simp [Matrix.trace, signMatrix, phaseMatrix, Matrix.mul_diagonal]
    ring
  rw [discrepancy_eq, overlap, toMatrix_hadamard, turn_eq, Matrix.conjTranspose_smul,
    conjTranspose_signMatrix, smul_mul_smul_comm, Matrix.trace_smul, trace_eq, smul_eq_mul,
    norm_mul, norm_mul, unit]
  simp

theorem distance_hadamard_identity : (hadamard : QubitMatrix ℝ).distance .identity = 1 := by
  have turn_eq : (identity : QubitMatrix ℝ).toMatrix = (1 : ℂ) • phaseMatrix 0 := by
    rw [one_smul, phaseMatrix_zero, toMatrix_identity]
  rw [distance_eq, discrepancy_hadamard norm_one turn_eq]
  norm_num

/-- One exchange is halfway to the Hadamard matrix. -/
theorem distance_hadamard_first :
    hadamard.distance (LetterMatrices.ofAnyon .ising : LetterMatrices ℝ).first = 1 / 2 := by
  rcases LetterMatrices.exists_toMatrix_first with ⟨factor, unit, turn_eq⟩
  have quarter : exp ((Real.pi / 2 : ℝ) * I) = I := by
    rw [Complex.ofReal_div, Complex.ofReal_ofNat, Complex.exp_pi_div_two_mul_I]
  have size : ‖1 - I‖ = Real.sqrt 2 := by
    rw [Complex.norm_def, Complex.normSq_apply]
    norm_num
  rw [distance_eq, discrepancy_hadamard unit turn_eq, quarter, size,
    inv_mul_cancel₀ (Real.sqrt_ne_zero'.2 two_pos)]
  norm_num

end QubitMatrix

namespace BaseSet

/-- Of the words of one letter, one is halfway to the Hadamard matrix. -/
theorem exists_halfway_hadamard : ∃ word ∈ (ofLength .ising 1 : BaseSet ℝ).words,
    QubitMatrix.hadamard.distance word.matrix = 1 / 2 := by
  have faithful := FaithfulKeys.ising 1
  have bounded : [Letter.first].length ≤ 1 := le_rfl
  rcases faithful.represents le_rfl bounded with ⟨word, listed, key_eq⟩
  have word_eq := eq_ofLetters listed
  rw [anyon_ofLength, word_eq] at key_eq
  have same := (faithful.key_eq_iff (length_le listed) bounded).1 key_eq
  refine ⟨word, listed, ?_⟩
  rw [word_eq, same.distance_eq]
  have first_eq : (BaseWord.ofLetters .ising [.first] : BaseWord ℝ).matrix.toMatrix =
      (LetterMatrices.ofAnyon .ising : LetterMatrices ℝ).first.toMatrix := by
    change ((LetterMatrices.ofAnyon .ising : LetterMatrices ℝ).first * .identity).toMatrix = _
    rw [QubitMatrix.toMatrix_mul, QubitMatrix.toMatrix_identity, mul_one]
  rw [QubitMatrix.toMatrix_injective first_eq]
  exact QubitMatrix.distance_hadamard_first

/-- The empty word is not halfway. -/
theorem letters_ne_nil_of_halfway {anyon : Anyon} {length : ℕ} {word : BaseWord ℝ}
    (listed : word ∈ (ofLength anyon length).words)
    (near : QubitMatrix.hadamard.distance word.matrix ≤ 1 / 2) : word.letters ≠ [] := by
  intro empty
  have word_eq := eq_ofLetters listed
  rw [empty] at word_eq
  have far : QubitMatrix.hadamard.distance word.matrix = 1 := by
    rw [word_eq]
    exact QubitMatrix.distance_hadamard_identity
  linarith

end BaseSet

end Anyonic
