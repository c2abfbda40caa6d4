import Mathlib
import Anyonic.Proofs.Exact.Phases

/-!
# The words of Ising anyons

Up to scalars, the letters of Ising anyons are quarter turns and quarter turns between changes of
basis, so that the matrix of a word is a multiple of one of twenty-four matrices of Gaussian
integers.  The entries of these are units or zero, and a fingerprint shows the signs of their parts.
Fingerprints of exact words are therefore faithful at every length.
-/

namespace Anyonic

open Complex (I exp)

/--
The matrices that arise from quarter turns and changes of basis, up to scalars: diagonal ones,
ones with zeros on the diagonal, and ones without zeros.
-/
inductive QuarterForm where
  | straight (phase : Fin 4)
  | crossed (phase : Fin 4)
  | mixed (column row : Fin 4)
deriving DecidableEq, Fintype

namespace QuarterForm

/-- The powers of the imaginary unit. -/
def quarter : Fin 4 → GaussianInt
  | 0 => 1
  | 1 => ⟨0, 1⟩
  | 2 => -1
  | 3 => ⟨0, -1⟩

/-- The matrix of a form, with one as its first entry that is not zero. -/
def toMatrix : QuarterForm → Matrix Bool Bool GaussianInt
  | .straight phase => Matrix.of fun
      | false, false => 1
      | true, true => quarter phase
      | _, _ => 0
  | .crossed phase => Matrix.of fun
      | false, true => 1
      | true, false => quarter phase
      | _, _ => 0
  | .mixed column row => Matrix.of fun
      | false, false => 1
      | false, true => quarter column
      | true, false => quarter row
      | true, true => -quarter (column + row)

/-- A quarter turn of the second basis state. -/
def quarterTurn : Matrix Bool Bool GaussianInt := (straight 1).toMatrix

/-- The change of basis, without its scalar. -/
def basisChange : Matrix Bool Bool GaussianInt := (mixed 0 0).toMatrix

/-- The form behind a quarter turn. -/
def turned : QuarterForm → QuarterForm
  | .straight phase => .straight (phase + 1)
  | .crossed phase => .crossed (phase + 1)
  | .mixed column row => .mixed column (row + 1)

/-- The form behind a change of basis, with the scalar that comes out. -/
def exchanged : QuarterForm → GaussianInt × QuarterForm
  | .straight phase => (1, .mixed phase 0)
  | .crossed phase => (quarter phase, .mixed (-phase) 2)
  | .mixed column 0 => (⟨2, 0⟩, .straight column)
  | .mixed column 1 => (⟨1, 1⟩, .mixed (column + 3) 3)
  | .mixed column 2 => (⟨2, 0⟩ * quarter column, .crossed (-column))
  | .mixed column 3 => (⟨1, -1⟩, .mixed (column + 1) 1)

theorem quarterTurn_mul : ∀ form, quarterTurn * toMatrix form = toMatrix form.turned := by
  decide

theorem basisChange_mul :
    ∀ form, basisChange * toMatrix form = form.exchanged.1 • toMatrix form.exchanged.2 := by
  decide

/-- The entries, row by row. -/
def entries (form : QuarterForm) : List GaussianInt :=
  [form.toMatrix false false, form.toMatrix false true, form.toMatrix true false,
    form.toMatrix true true]

/-- The parts of the entries, real and imaginary by turns. -/
def parts (form : QuarterForm) : List ℤ := form.entries.flatMap fun entry => [entry.re, entry.im]

theorem parts_injective : ∀ first second : QuarterForm, first.parts = second.parts →
    first = second := by
  decide

/-- The size of the first column. -/
def weight (form : QuarterForm) : ℤ :=
  (form.toMatrix false false).norm + (form.toMatrix true false).norm

theorem weight_bounds : ∀ form : QuarterForm, 1 ≤ form.weight ∧ form.weight ≤ 2 := by
  decide

theorem mem_parts : ∀ form : QuarterForm, ∀ part ∈ form.parts, part = 0 ∨ part = 1 ∨ part = -1 := by
  decide

end QuarterForm

/-- A complex matrix that is a multiple of a form. -/
def IsQuarter (matrix : Matrix Bool Bool ℂ) : Prop :=
  ∃ (form : QuarterForm) (factor : ℂ), matrix = factor • form.toMatrix.map GaussianInt.toComplex

/-- A complex matrix that makes multiples of forms of multiples of forms. -/
def KeepsQuarters (matrix : Matrix Bool Bool ℂ) : Prop :=
  ∀ other : Matrix Bool Bool ℂ, IsQuarter other → IsQuarter (matrix * other)

namespace KeepsQuarters

variable {matrix other : Matrix Bool Bool ℂ}

theorem mul (keeps : KeepsQuarters matrix) (keeps' : KeepsQuarters other) :
    KeepsQuarters (matrix * other) := by
  intro target quarter
  rw [mul_assoc]
  exact keeps _ (keeps' target quarter)

theorem smul (keeps : KeepsQuarters matrix) (scalar : ℂ) : KeepsQuarters (scalar • matrix) := by
  intro target quarter
  rcases keeps target quarter with ⟨form, factor, product_eq⟩
  refine ⟨form, scalar * factor, ?_⟩
  rw [smul_mul_assoc, product_eq, smul_smul]

theorem phaseMatrix : KeepsQuarters (phaseMatrix (Real.pi / 2)) := by
  have quarterTurn : QuarterForm.quarterTurn.map GaussianInt.toComplex =
      Anyonic.phaseMatrix (Real.pi / 2) := by
    ext row column
    cases row <;> cases column <;>
      simp [QuarterForm.quarterTurn, QuarterForm.toMatrix, QuarterForm.quarter,
        Anyonic.phaseMatrix, GaussianInt.toComplex_def, Matrix.diagonal]
  rintro target ⟨form, factor, rfl⟩
  refine ⟨form.turned, factor, ?_⟩
  rw [← quarterTurn, mul_smul_comm, ← Matrix.map_mul, QuarterForm.quarterTurn_mul]

theorem signMatrix : KeepsQuarters signMatrix := by
  have basisChange : QuarterForm.basisChange.map GaussianInt.toComplex = Anyonic.signMatrix := by
    ext row column
    cases row <;> cases column <;>
      simp [QuarterForm.basisChange, QuarterForm.toMatrix, QuarterForm.quarter, Anyonic.signMatrix]
  rintro target ⟨form, factor, rfl⟩
  refine ⟨form.exchanged.2, factor * GaussianInt.toComplex form.exchanged.1, ?_⟩
  rw [← basisChange, mul_smul_comm, ← Matrix.map_mul, QuarterForm.basisChange_mul,
    Matrix.map_smul' _ _ _ (map_mul GaussianInt.toComplex), smul_smul]

end KeepsQuarters

theorem conjTranspose_phaseMatrix (angle : ℝ) :
    (phaseMatrix angle).conjTranspose = phaseMatrix (-angle) := by
  rw [phaseMatrix, phaseMatrix, Matrix.diagonal_conjTranspose]
  congr 1
  funext value
  cases value <;> simp [← Complex.exp_conj]

theorem conjTranspose_signMatrix : signMatrix.conjTranspose = signMatrix := by
  ext row column
  cases row <;> cases column <;> simp [signMatrix]

theorem QubitMatrix.toMatrix_diagonal_phase (first second : ℝ) :
    (diagonal (.phase first) (.phase second)).toMatrix =
      exp (first * I) • phaseMatrix (second - first) := by
  rw [toMatrix_diagonal, phaseMatrix, ← Matrix.diagonal_smul]
  congr 1
  funext value
  cases value
  · simp
  · simp only [Amplitude.toComplex_phase, if_true, Pi.smul_apply, smul_eq_mul, ← Complex.exp_add]
    congr 1
    push_cast
    ring

namespace LetterMatrices

theorem exists_toMatrix_first : ∃ scalar : ℂ, ‖scalar‖ = 1 ∧
    (ofAnyon .ising : LetterMatrices ℝ).first.toMatrix = scalar • phaseMatrix (Real.pi / 2) := by
  have angle : 3.0 * Real.pi / 8.0 - -Real.pi / 8.0 = Real.pi / 2 := by
    norm_num
    ring
  have first_eq : (ofAnyon .ising : LetterMatrices ℝ).first.toMatrix = _ :=
    QubitMatrix.toMatrix_diagonal_phase (-Real.pi / 8.0) (3.0 * Real.pi / 8.0)
  rw [angle] at first_eq
  exact ⟨_, Complex.norm_exp_ofReal_mul_I _, first_eq⟩

theorem toMatrix_basisChange :
    (Anyon.ising.model.basisChange : QubitMatrix ℝ).toMatrix = (Real.sqrt 2 : ℂ)⁻¹ • signMatrix :=
  Gate.wireMatrix_h

theorem keepsQuarters_first :
    KeepsQuarters (ofAnyon .ising : LetterMatrices ℝ).first.toMatrix := by
  rcases exists_toMatrix_first with ⟨scalar, -, first_eq⟩
  rw [first_eq]
  exact KeepsQuarters.phaseMatrix.smul scalar

theorem keepsQuarters_firstInverse :
    KeepsQuarters (ofAnyon .ising : LetterMatrices ℝ).firstInverse.toMatrix := by
  rcases exists_toMatrix_first with ⟨scalar, -, first_eq⟩
  have thrice : phaseMatrix (-(Real.pi / 2)) =
      phaseMatrix (Real.pi / 2) * (phaseMatrix (Real.pi / 2) * phaseMatrix (Real.pi / 2)) := by
    rw [phaseMatrix_mul, phaseMatrix_mul]
    refine phaseMatrix_congr (-1) ?_
    push_cast
    ring
  have inverse_eq : (ofAnyon .ising : LetterMatrices ℝ).firstInverse.toMatrix =
      star scalar • phaseMatrix (-(Real.pi / 2)) := by
    have dagger_eq := QubitMatrix.toMatrix_dagger (ofAnyon .ising).first
    rw [first_eq, Matrix.conjTranspose_smul, conjTranspose_phaseMatrix] at dagger_eq
    exact dagger_eq
  rw [inverse_eq, thrice]
  exact (KeepsQuarters.phaseMatrix.mul
    (KeepsQuarters.phaseMatrix.mul KeepsQuarters.phaseMatrix)).smul _

/-- Between changes of basis, whatever keeps multiples of forms still does. -/
theorem keepsQuarters_between {u : QubitMatrix ℝ} (keeps : KeepsQuarters u.toMatrix) :
    KeepsQuarters (Anyon.ising.model.basisChange * u *
      Anyon.ising.model.basisChange.dagger : QubitMatrix ℝ).toMatrix := by
  rw [QubitMatrix.toMatrix_mul, QubitMatrix.toMatrix_mul, QubitMatrix.toMatrix_dagger,
    toMatrix_basisChange, Matrix.conjTranspose_smul, conjTranspose_signMatrix]
  exact ((KeepsQuarters.signMatrix.smul _).mul keeps).mul (KeepsQuarters.signMatrix.smul _)

theorem keepsQuarters_get (letter : Letter) :
    KeepsQuarters ((ofAnyon .ising : LetterMatrices ℝ).get letter).toMatrix := by
  cases letter with
  | first => exact keepsQuarters_first
  | firstInverse => exact keepsQuarters_firstInverse
  | second => exact keepsQuarters_between keepsQuarters_first
  | secondInverse =>
      have inverse_eq : ((ofAnyon .ising : LetterMatrices ℝ).get .secondInverse).toMatrix =
          (Anyon.ising.model.basisChange * (ofAnyon .ising).firstInverse *
            Anyon.ising.model.basisChange.dagger : QubitMatrix ℝ).toMatrix := by
        change (QubitMatrix.dagger (_ * _ * QubitMatrix.dagger _)).toMatrix =
          (_ * QubitMatrix.dagger _ * QubitMatrix.dagger _ : QubitMatrix ℝ).toMatrix
        simp only [QubitMatrix.toMatrix_dagger, QubitMatrix.toMatrix_mul,
          Matrix.conjTranspose_mul, Matrix.conjTranspose_conjTranspose, mul_assoc]
      rw [inverse_eq]
      exact keepsQuarters_between keepsQuarters_firstInverse

end LetterMatrices

theorem BaseWord.isQuarter_ofLetters (letters : List Letter) :
    IsQuarter (ofLetters .ising letters : BaseWord ℝ).matrix.toMatrix := by
  induction letters using List.reverseRecOn with
  | nil =>
      refine ⟨.straight 0, 1, ?_⟩
      change QubitMatrix.identity.toMatrix = _
      rw [QubitMatrix.toMatrix_identity, one_smul]
      ext row column
      cases row <;> cases column <;> simp [QuarterForm.toMatrix, QuarterForm.quarter]
  | append_singleton letters letter ih =>
      rw [ofLetters_concat, push, QubitMatrix.toMatrix_mul]
      exact LetterMatrices.keepsQuarters_get letter _ ih

/-- The sign of a part is still there after it has been scaled and rounded. -/
theorem Scalar.sign_nearest {size : ℝ} (large : 1 ≤ size) {part : ℤ}
    (small : part = 0 ∨ part = 1 ∨ part = -1) : (Scalar.nearest (size * part)).sign = part := by
  have rounded := Scalar.abs_nearest_sub_le (size * part)
  rw [abs_le] at rounded
  rcases small with rfl | rfl | rfl
  · have none : Scalar.nearest (size * (0 : ℤ)) = 0 := Scalar.nearest_eq (by norm_num)
    rw [none, Int.sign_zero]
  · apply Int.sign_eq_one_of_pos
    have above : (0 : ℝ) < Scalar.nearest (size * (1 : ℤ)) := by
      push_cast at rounded ⊢
      linarith
    exact_mod_cast above
  · apply Int.sign_eq_neg_one_of_neg
    have below : (Scalar.nearest (size * (-1 : ℤ)) : ℝ) < 0 := by
      push_cast at rounded ⊢
      linarith
    exact_mod_cast below

namespace QubitMatrix

variable {u v : QubitMatrix ℝ} {form : QuarterForm} {factor : ℂ}

/-- The scalar of a unitary matrix is as large as the form leaves it. -/
theorem IsUnitary.norm_factor (unitary : u.IsUnitary)
    (u_eq : u.toMatrix = factor • form.toMatrix.map GaussianInt.toComplex) :
    ‖factor‖ ^ 2 * form.weight = 1 := by
  have entry (row column : Bool) := congrFun (congrFun u_eq row) column
  have first : u.a.toComplex = factor * GaussianInt.toComplex (form.toMatrix false false) :=
    entry false false
  have second : u.c.toComplex = factor * GaussianInt.toComplex (form.toMatrix true false) :=
    entry true false
  have column := unitary.column
  rw [Amplitude.norm_eq, Amplitude.norm_eq, first, second, norm_mul, norm_mul, mul_pow, mul_pow,
    Complex.sq_norm (GaussianInt.toComplex _), Complex.sq_norm (GaussianInt.toComplex _),
    ← GaussianInt.intCast_real_norm, ← GaussianInt.intCast_real_norm] at column
  rw [QuarterForm.weight]
  push_cast
  linarith

theorem IsUnitary.half_lt_norm_factor (unitary : u.IsUnitary)
    (u_eq : u.toMatrix = factor • form.toMatrix.map GaussianInt.toComplex) : 1 / 2 < ‖factor‖ := by
  have size := unitary.norm_factor u_eq
  have weight_le : (form.weight : ℝ) ≤ 2 := by exact_mod_cast form.weight_bounds.2
  nlinarith [norm_nonneg factor, sq_nonneg ‖factor‖]

/-- The first entry of a form that is not zero is one, so that the scalar fixes the phase. -/
theorem IsUnitary.toComplex_phaseReference (unitary : u.IsUnitary)
    (u_eq : u.toMatrix = factor • form.toMatrix.map GaussianInt.toComplex) :
    u.phaseReference.toComplex = star factor / ‖factor‖ := by
  have large := unitary.half_lt_norm_factor u_eq
  have notable : (phaseFloor : ℝ) < ‖factor‖ := by
    norm_num [phaseFloor]
    linarith
  have entry (row column : Bool) := congrFun (congrFun u_eq row) column
  have found : ∃ z, u.entries.find? (fun z => phaseFloor < z.norm) = some z ∧
      z.toComplex = factor := by
    cases form with
    | straight phase =>
        have first : u.a.toComplex = factor := (entry false false).trans (by
          simp [QuarterForm.toMatrix])
        exact ⟨u.a, List.find?_cons_of_pos (by simpa [Amplitude.norm_eq, first]), first⟩
    | mixed column row =>
        have first : u.a.toComplex = factor := (entry false false).trans (by
          simp [QuarterForm.toMatrix])
        exact ⟨u.a, List.find?_cons_of_pos (by simpa [Amplitude.norm_eq, first]), first⟩
    | crossed phase =>
        have first : u.a.toComplex = 0 := (entry false false).trans (by
          simp [QuarterForm.toMatrix])
        have second : u.b.toComplex = factor := (entry false true).trans (by
          simp [QuarterForm.toMatrix])
        refine ⟨u.b, ?_, second⟩
        rw [entries, List.find?_cons_of_neg, List.find?_cons_of_pos]
        · simpa [Amplitude.norm_eq, second]
        · norm_num [Amplitude.norm_eq, first, phaseFloor]
  rcases found with ⟨z, found, z_eq⟩
  rw [phaseReference, found]
  simp only [Amplitude.toComplex_divReal, Amplitude.toComplex_conj, Amplitude.norm_eq, z_eq]

/-- The fingerprint of a multiple of a form has the parts of the form, to scale. -/
theorem IsUnitary.phaseKey_of_form (unitary : u.IsUnitary)
    (u_eq : u.toMatrix = factor • form.toMatrix.map GaussianInt.toComplex) :
    u.phaseKey =
      form.parts.map fun part : ℤ => Scalar.nearest (keyScale * ‖factor‖ * (part : ℝ)) := by
  have reference_eq := unitary.toComplex_phaseReference u_eq
  have positive : (‖factor‖ : ℂ) ≠ 0 := by
    have large := unitary.half_lt_norm_factor u_eq
    exact_mod_cast (by linarith : ‖factor‖ ≠ 0)
  have scaled {z : Amplitude ℝ} {entry : GaussianInt}
      (z_eq : z.toComplex = factor * GaussianInt.toComplex entry) :
      z * u.phaseReference = ⟨‖factor‖ * entry.re, ‖factor‖ * entry.im⟩ := by
    have product : (z * u.phaseReference).toComplex = ‖factor‖ * GaussianInt.toComplex entry := by
      have square : factor * star factor = ‖factor‖ ^ 2 := Complex.mul_conj' factor
      rw [Amplitude.toComplex_mul, z_eq, reference_eq]
      field_simp
      linear_combination GaussianInt.toComplex entry * square
    apply Amplitude.toComplex_injective
    rw [product, GaussianInt.toComplex_def]
    apply Complex.ext <;> simp [Amplitude.toComplex]
  have entry (row column : Bool) := congrFun (congrFun u_eq row) column
  have part (part : ℤ) : ‖factor‖ * part * keyScale = keyScale * ‖factor‖ * part := by ring
  simp only [phaseKey, entries, QuarterForm.parts, QuarterForm.entries, List.flatMap_cons,
    List.flatMap_nil, scaled (entry false false), scaled (entry false true),
    scaled (entry true false), scaled (entry true true), part]
  rfl

theorem IsUnitary.norm_factor_eq (unitary : u.IsUnitary) (unitary' : v.IsUnitary) {factor' : ℂ}
    (u_eq : u.toMatrix = factor • form.toMatrix.map GaussianInt.toComplex)
    (v_eq : v.toMatrix = factor' • form.toMatrix.map GaussianInt.toComplex) :
    ‖factor‖ = ‖factor'‖ := by
  have weight_pos : (form.weight : ℝ) ≠ 0 := by
    exact_mod_cast (by have := form.weight_bounds.1; omega : form.weight ≠ 0)
  have sizes := (unitary.norm_factor u_eq).trans (unitary'.norm_factor v_eq).symm
  have squares := mul_right_cancel₀ weight_pos sizes
  exact (sq_eq_sq₀ (norm_nonneg _) (norm_nonneg _)).1 squares

/-- Unitary multiples of forms have equal fingerprints only if they agree up to a global phase. -/
theorem IsUnitary.samePhase_of_phaseKey_eq (unitary : u.IsUnitary) (unitary' : v.IsUnitary)
    (quarter : IsQuarter u.toMatrix) (quarter' : IsQuarter v.toMatrix)
    (same : u.phaseKey = v.phaseKey) : SamePhase u v := by
  rcases quarter with ⟨form, factor, u_eq⟩
  rcases quarter' with ⟨form', factor', v_eq⟩
  have signs {w : QubitMatrix ℝ} {form : QuarterForm} {factor : ℂ} (unitary : w.IsUnitary)
      (w_eq : w.toMatrix = factor • form.toMatrix.map GaussianInt.toComplex) :
      w.phaseKey.map Int.sign = form.parts := by
    have large : 1 ≤ keyScale * ‖factor‖ := by
      have half := unitary.half_lt_norm_factor w_eq
      norm_num [keyScale]
      linarith
    rw [unitary.phaseKey_of_form w_eq, List.map_map]
    refine (List.map_congr_left fun part listed => ?_).trans (List.map_id _)
    exact Scalar.sign_nearest large (form.mem_parts part listed)
  have forms_eq : form = form' := by
    apply QuarterForm.parts_injective
    rw [← signs unitary u_eq, ← signs unitary' v_eq, same]
  subst forms_eq
  have positive : ‖factor'‖ ≠ 0 := by
    have large := unitary'.half_lt_norm_factor v_eq
    linarith
  refine ⟨factor / factor', ?_, ?_⟩
  · rw [norm_div, unitary.norm_factor_eq unitary' u_eq v_eq, div_self positive]
  · rw [u_eq, v_eq, smul_smul, div_mul_cancel₀ _ (norm_ne_zero_iff.1 positive)]

end QubitMatrix

/-- The fingerprints of exact Ising words are faithful at every length. -/
theorem FaithfulKeys.ising (length : ℕ) :
    FaithfulKeys (α := ℝ) .ising length QubitMatrix.SamePhase := by
  apply FaithfulKeys.exact
  intro first second _ _ same
  exact (BaseWord.isUnitary_ofLetters .ising first).samePhase_of_phaseKey_eq
    (BaseWord.isUnitary_ofLetters .ising second) (BaseWord.isQuarter_ofLetters first)
    (BaseWord.isQuarter_ofLetters second) same

end Anyonic
