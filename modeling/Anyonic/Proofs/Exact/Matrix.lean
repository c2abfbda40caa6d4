import Anyonic.Proofs.Exact.Scalar
import Anyonic.Gate.Matrix
import Anyonic.Proofs.Gate.Turn

/-!
# Exact matrices of single-qubit gates

The complex matrix of every single-qubit gate, read from the compiler's own matrices in exact
arithmetic.  Rows and columns are the two values of the qubit.  The diagonal gates other than the
third rotation are phases of the second basis state, and phases of the same kind add up; the
rotations about each axis add up as well, and a full turn is the identity up to a sign.
-/

namespace Anyonic

open Complex (I exp)

/-- An amplitude as a complex number. -/
def Amplitude.toComplex (z : Amplitude ℝ) : ℂ := ⟨z.re, z.im⟩

/-- A two-by-two matrix with rows and columns the values of a qubit. -/
def QubitMatrix.toMatrix (u : QubitMatrix ℝ) : Matrix Bool Bool ℂ :=
  Matrix.of fun
    | false, false => u.a.toComplex
    | false, true => u.b.toComplex
    | true, false => u.c.toComplex
    | true, true => u.d.toComplex

/-- The matrix that gives the second basis state a phase. -/
noncomputable def phaseMatrix (angle : ℝ) : Matrix Bool Bool ℂ :=
  Matrix.diagonal fun value => if value then exp (angle * I) else 1

/-- The matrix of a rotation about an axis, whose square is minus the identity. -/
noncomputable def turnMatrix (axis : Matrix Bool Bool ℂ) (angle : ℝ) : Matrix Bool Bool ℂ :=
  (Real.cos (angle / 2) : ℂ) • 1 + (Real.sin (angle / 2) : ℂ) • axis

/-- The matrix that exchanges the basis states. -/
def flipMatrix : Matrix Bool Bool ℂ := Matrix.of fun row column => if row = !column then 1 else 0

/-- The character table of the two basis states. -/
def signMatrix : Matrix Bool Bool ℂ :=
  Matrix.of fun row column => if row && column then -1 else 1

namespace Amplitude

@[simp] theorem toComplex_phase (angle : ℝ) : (phase angle).toComplex = exp (angle * I) := by
  apply Complex.ext <;>
    norm_num [toComplex, phase, polar, Complex.exp_ofReal_mul_I_re, Complex.exp_ofReal_mul_I_im]

@[simp] theorem toComplex_ofReal (value : ℝ) : (ofReal value).toComplex = value := by
  apply Complex.ext <;> norm_num [toComplex, ofReal]

@[simp] theorem toComplex_zero : (zero : Amplitude ℝ).toComplex = 0 := by
  simp [zero]
  norm_num

@[simp] theorem toComplex_one : (one : Amplitude ℝ).toComplex = 1 := by
  simp [one]
  norm_num

@[simp] theorem toComplex_neg (z : Amplitude ℝ) : (-z).toComplex = -z.toComplex := rfl

end Amplitude

namespace Axis

/-- The first axis. -/
def x : Matrix Bool Bool ℂ := (-I) • flipMatrix

/-- The second axis. -/
def y : Matrix Bool Bool ℂ :=
  Matrix.of fun
    | false, true => -1
    | true, false => 1
    | _, _ => 0

/-- The third axis. -/
def z : Matrix Bool Bool ℂ := Matrix.diagonal fun value => if value then I else -I

theorem x_mul_self : x * x = -1 := by
  ext row column
  cases row <;> cases column <;> simp [x, flipMatrix, Matrix.mul_apply]

theorem y_mul_self : y * y = -1 := by
  ext row column
  cases row <;> cases column <;> simp [y, Matrix.mul_apply]

theorem z_mul_self : z * z = -1 := by
  ext row column
  cases row <;> cases column <;> simp [z, Matrix.mul_apply, Matrix.diagonal]

end Axis

theorem turnMatrix_mul {axis : Matrix Bool Bool ℂ} (square : axis * axis = -1)
    (first second : ℝ) :
    turnMatrix axis first * turnMatrix axis second = turnMatrix axis (first + second) := by
  have halves : (first + second) / 2 = first / 2 + second / 2 := by ring
  simp only [turnMatrix, halves, Real.cos_add, Real.sin_add, add_mul, mul_add, smul_mul_smul_comm,
    one_mul, mul_one, square]
  push_cast
  module

/-- A number of full turns is the identity up to a sign. -/
theorem turnMatrix_full (axis : Matrix Bool Bool ℂ) (count : ℤ) :
    turnMatrix axis (count * (2 * Real.pi)) = ((-1 : ℂ) ^ count) • 1 := by
  have half : (count * (2 * Real.pi)) / 2 = count * Real.pi := by ring
  simp [turnMatrix, half, Real.cos_int_mul_pi, Real.sin_int_mul_pi]

theorem turnMatrix_zero (axis : Matrix Bool Bool ℂ) : turnMatrix axis 0 = 1 := by
  simp [turnMatrix]

theorem phaseMatrix_mul (first second : ℝ) :
    phaseMatrix first * phaseMatrix second = phaseMatrix (first + second) := by
  rw [phaseMatrix, phaseMatrix, phaseMatrix, Matrix.diagonal_mul_diagonal]
  congr 1
  funext value
  cases value <;> simp [add_mul, Complex.exp_add]

theorem phaseMatrix_full (count : ℤ) : phaseMatrix (count * (2 * Real.pi)) = 1 := by
  have whole : exp (((count * (2 * Real.pi) : ℝ) : ℂ) * I) = 1 := by
    rw [Complex.exp_eq_one_iff]
    exact ⟨count, by push_cast; ring⟩
  simp only [phaseMatrix, whole, ite_self, Matrix.diagonal_one]

theorem phaseMatrix_zero : phaseMatrix 0 = 1 := by
  simpa using phaseMatrix_full 0

theorem phaseMatrix_congr {first second : ℝ} (count : ℤ)
    (differ : first = second + count * (2 * Real.pi)) :
    phaseMatrix first = phaseMatrix second := by
  rw [differ, ← phaseMatrix_mul, phaseMatrix_full, mul_one]

theorem flipMatrix_mul_self : flipMatrix * flipMatrix = 1 := by
  ext row column
  cases row <;> cases column <;> simp [flipMatrix, Matrix.mul_apply]

theorem signMatrix_mul_self : signMatrix * signMatrix = (2 : ℂ) • 1 := by
  ext row column
  cases row <;> cases column <;> norm_num [signMatrix, Matrix.mul_apply]

/-- A change of basis turns the phase of half a turn into an exchange. -/
theorem signMatrix_mul_phaseMatrix_mul :
    signMatrix * phaseMatrix Real.pi * signMatrix = (2 : ℂ) • flipMatrix := by
  ext row column
  cases row <;> cases column <;>
    norm_num [signMatrix, phaseMatrix, flipMatrix, Matrix.mul_apply, Matrix.diagonal]

namespace QubitMatrix

theorem toMatrix_diagonal (first second : Amplitude ℝ) :
    (diagonal first second).toMatrix =
      Matrix.diagonal fun value => if value then second.toComplex else first.toComplex := by
  ext row column
  cases row <;> cases column <;> simp [toMatrix, diagonal, Matrix.diagonal]

theorem toMatrix_identity : (identity : QubitMatrix ℝ).toMatrix = 1 := by
  simp [identity, toMatrix_diagonal]

theorem toMatrix_phaseShift (angle : ℝ) : (phaseShift angle).toMatrix = phaseMatrix angle := by
  simp [phaseShift, toMatrix_diagonal, phaseMatrix]

theorem toMatrix_pauliX : (pauliX : QubitMatrix ℝ).toMatrix = flipMatrix := by
  ext row column
  cases row <;> cases column <;> simp [toMatrix, pauliX, flipMatrix]

theorem toMatrix_rotationX (angle : ℝ) :
    (rotationX angle).toMatrix = turnMatrix Axis.x angle := by
  ext row column
  cases row <;> cases column <;>
    norm_num [toMatrix, rotationX, turnMatrix, Axis.x, flipMatrix, Amplitude.toComplex,
      Amplitude.ofReal, Complex.ext_iff, -Complex.ofReal_cos, -Complex.ofReal_sin]

theorem toMatrix_rotationY (angle : ℝ) :
    (rotationY angle).toMatrix = turnMatrix Axis.y angle := by
  ext row column
  cases row <;> cases column <;>
    norm_num [toMatrix, rotationY, turnMatrix, Axis.y, Amplitude.toComplex,
      Amplitude.ofReal, Complex.ext_iff, -Complex.ofReal_cos, -Complex.ofReal_sin]

theorem toMatrix_rotationZ (angle : ℝ) :
    (rotationZ angle).toMatrix = turnMatrix Axis.z angle := by
  ext row column
  cases row <;> cases column <;>
    norm_num [toMatrix, rotationZ, diagonal, turnMatrix, Axis.z, Amplitude.toComplex,
      Amplitude.phase, Amplitude.polar, Amplitude.zero, Amplitude.ofReal, Complex.ext_iff,
      neg_div, -Complex.ofReal_cos, -Complex.ofReal_sin]

end QubitMatrix

namespace Gate

/-- The complex matrix of a single-qubit gate. -/
noncomputable def wireMatrix (gate : Gate ℝ) : Matrix Bool Bool ℂ :=
  (gate.matrix?.map QubitMatrix.toMatrix).getD 1

@[simp] theorem wireMatrix_identity : wireMatrix .identity = 1 :=
  QubitMatrix.toMatrix_identity

@[simp] theorem wireMatrix_h : wireMatrix .h = ((Real.sqrt 2 : ℂ)⁻¹) • signMatrix := by
  ext row column
  cases row <;> cases column <;>
    norm_num [wireMatrix, matrix?, QubitMatrix.toMatrix, QubitMatrix.hadamard, signMatrix]

@[simp] theorem wireMatrix_y : wireMatrix .y = I • Axis.y := by
  ext row column
  cases row <;> cases column <;>
    norm_num [wireMatrix, matrix?, QubitMatrix.toMatrix, QubitMatrix.pauliY, Axis.y,
      Amplitude.toComplex, Amplitude.zero, Amplitude.ofReal, Complex.ext_iff]

@[simp] theorem wireMatrix_x : wireMatrix .x = flipMatrix := QubitMatrix.toMatrix_pauliX

@[simp] theorem wireMatrix_z : wireMatrix .z = phaseMatrix Real.pi :=
  QubitMatrix.toMatrix_phaseShift _

@[simp] theorem wireMatrix_s : wireMatrix .s = phaseMatrix (Real.pi / 2) := by
  norm_num [wireMatrix, matrix?, QubitMatrix.toMatrix_phaseShift]

@[simp] theorem wireMatrix_sdg : wireMatrix .sdg = phaseMatrix (-Real.pi / 2) := by
  norm_num [wireMatrix, matrix?, QubitMatrix.toMatrix_phaseShift]

@[simp] theorem wireMatrix_t : wireMatrix .t = phaseMatrix (Real.pi / 4) := by
  norm_num [wireMatrix, matrix?, QubitMatrix.toMatrix_phaseShift]

@[simp] theorem wireMatrix_tdg : wireMatrix .tdg = phaseMatrix (-Real.pi / 4) := by
  norm_num [wireMatrix, matrix?, QubitMatrix.toMatrix_phaseShift]

@[simp] theorem wireMatrix_p (angle : ℝ) : wireMatrix (.p angle) = phaseMatrix angle :=
  QubitMatrix.toMatrix_phaseShift angle

@[simp] theorem wireMatrix_rx (angle : ℝ) : wireMatrix (.rx angle) = turnMatrix Axis.x angle :=
  QubitMatrix.toMatrix_rotationX angle

@[simp] theorem wireMatrix_ry (angle : ℝ) : wireMatrix (.ry angle) = turnMatrix Axis.y angle :=
  QubitMatrix.toMatrix_rotationY angle

@[simp] theorem wireMatrix_rz (angle : ℝ) : wireMatrix (.rz angle) = turnMatrix Axis.z angle :=
  QubitMatrix.toMatrix_rotationZ angle

theorem inv_sqrt_two_mul_self : (Real.sqrt 2 : ℂ)⁻¹ * (Real.sqrt 2 : ℂ)⁻¹ * 2 = 1 := by
  rw [← mul_inv, ← Complex.ofReal_mul, Real.mul_self_sqrt (by norm_num)]
  norm_num

theorem wireMatrix_h_mul_self : wireMatrix .h * wireMatrix .h = 1 := by
  rw [wireMatrix_h, smul_mul_smul_comm, signMatrix_mul_self, smul_smul, inv_sqrt_two_mul_self,
    one_smul]

/-- Between changes of basis the third axis becomes the first. -/
theorem wireMatrix_h_z_h : wireMatrix .h * wireMatrix .z * wireMatrix .h = wireMatrix .x := by
  rw [wireMatrix_h, wireMatrix_z, wireMatrix_x, smul_mul_assoc, smul_mul_smul_comm,
    signMatrix_mul_phaseMatrix_mul, smul_smul, inv_sqrt_two_mul_self, one_smul]

/-- Between changes of basis the first axis becomes the third. -/
theorem wireMatrix_h_x_h : wireMatrix .h * wireMatrix .x * wireMatrix .h = wireMatrix .z := by
  rw [← wireMatrix_h_z_h]
  calc wireMatrix .h * (wireMatrix .h * wireMatrix .z * wireMatrix .h) * wireMatrix .h
      = (wireMatrix .h * wireMatrix .h) * wireMatrix .z * (wireMatrix .h * wireMatrix .h) := by
        simp only [mul_assoc]
    _ = wireMatrix .z := by rw [wireMatrix_h_mul_self, one_mul, mul_one]

end Gate

namespace Turn

/-- Turns of the same kind add up.  A controlled phase has no matrix on a wire of its own. -/
theorem wireMatrix_mul (turn : Turn) (first second : ℝ) :
    (turn.gate first).wireMatrix * (turn.gate second).wireMatrix =
      (turn.gate (first + second)).wireMatrix := by
  cases turn with
  | rx => simp only [Turn.gate, Gate.wireMatrix_rx, turnMatrix_mul Axis.x_mul_self]
  | ry => simp only [Turn.gate, Gate.wireMatrix_ry, turnMatrix_mul Axis.y_mul_self]
  | rz => simp only [Turn.gate, Gate.wireMatrix_rz, turnMatrix_mul Axis.z_mul_self]
  | p => simp only [Turn.gate, Gate.wireMatrix_p, phaseMatrix_mul]
  | cp => exact one_mul _

theorem wireMatrix_full (turn : Turn) (count : ℤ) :
    ∃ sign : ℂ, ‖sign‖ = 1 ∧ (turn.gate (count * (2 * Real.pi))).wireMatrix = sign • 1 := by
  have unit : ‖(-1 : ℂ) ^ count‖ = 1 := by simp
  cases turn with
  | rx => exact ⟨(-1) ^ count, unit, (Gate.wireMatrix_rx _).trans (turnMatrix_full _ count)⟩
  | ry => exact ⟨(-1) ^ count, unit, (Gate.wireMatrix_ry _).trans (turnMatrix_full _ count)⟩
  | rz => exact ⟨(-1) ^ count, unit, (Gate.wireMatrix_rz _).trans (turnMatrix_full _ count)⟩
  | p =>
      refine ⟨1, norm_one, ?_⟩
      rw [one_smul]
      exact (Gate.wireMatrix_p _).trans (phaseMatrix_full count)
  | cp => exact ⟨1, norm_one, (one_smul ℂ _).symm⟩

theorem wireMatrix_neg_mul (turn : Turn) (angle : ℝ) :
    (turn.gate (-angle)).wireMatrix * (turn.gate angle).wireMatrix = 1 := by
  rw [wireMatrix_mul, neg_add_cancel]
  cases turn with
  | rx | ry | rz => simp [Turn.gate, turnMatrix_zero]
  | p => simp [Turn.gate, phaseMatrix_zero]
  | cp => rfl

end Turn

namespace Gate

theorem wireMatrix_inverse_mul (gate : Gate ℝ) :
    wireMatrix gate.inverse * wireMatrix gate = 1 := by
  cases gate with
  | identity => simp [inverse]
  | h => exact wireMatrix_h_mul_self
  | x =>
      change wireMatrix .x * wireMatrix .x = 1
      rw [wireMatrix_x, flipMatrix_mul_self]
  | y =>
      change wireMatrix .y * wireMatrix .y = 1
      rw [wireMatrix_y, smul_mul_smul_comm, Axis.y_mul_self, Complex.I_mul_I]
      simp
  | z =>
      change wireMatrix .z * wireMatrix .z = 1
      rw [wireMatrix_z, phaseMatrix_mul, ← phaseMatrix_zero]
      exact phaseMatrix_congr 1 (by push_cast; ring)
  | s | sdg | t | tdg =>
      simp only [inverse, wireMatrix_s, wireMatrix_sdg, wireMatrix_t, wireMatrix_tdg,
        phaseMatrix_mul]
      rw [← phaseMatrix_zero]
      congr 1
      ring
  | p angle => exact Turn.p.wireMatrix_neg_mul angle
  | rx angle => exact Turn.rx.wireMatrix_neg_mul angle
  | ry angle => exact Turn.ry.wireMatrix_neg_mul angle
  | rz angle => exact Turn.rz.wireMatrix_neg_mul angle
  | cp angle => exact Turn.cp.wireMatrix_neg_mul angle
  | cx | cz | swap | ccx => simp [inverse, wireMatrix, matrix?]
  | mcz controls => simp [inverse, wireMatrix, matrix?]

end Gate

end Anyonic
