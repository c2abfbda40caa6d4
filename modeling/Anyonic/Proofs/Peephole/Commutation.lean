import Anyonic.Peephole.Commutation
import Anyonic.Proofs.Gate.Turn
import Anyonic.Proofs.Operator.Gates

/-!
# Soundness of the commutation test

Instructions that pass the commutation test have operators that commute, whatever the environment
does.  The test has five reasons to say so: an identity gate, disjoint operands, two diagonal
gates, the same kind of gate on the same operands, and a gate that passes a controlled not.
-/

namespace Anyonic

open Complex (I exp)

variable {width : ℕ} (environment : Environment width)

namespace Gate

theorem wireMatrix_eq_diagonal {gate : Gate ℝ} (diagonal : gate.diagonalPhase?.isSome) :
    ∃ weight, gate.wireMatrix = Matrix.diagonal weight := by
  cases gate with
  | identity => exact ⟨fun _ => 1, by simp⟩
  | z => exact ⟨_, wireMatrix_z⟩
  | s => exact ⟨_, wireMatrix_s⟩
  | sdg => exact ⟨_, wireMatrix_sdg⟩
  | t => exact ⟨_, wireMatrix_t⟩
  | tdg => exact ⟨_, wireMatrix_tdg⟩
  | p angle => exact ⟨_, wireMatrix_p angle⟩
  | rz angle =>
      refine ⟨fun value =>
        Real.cos (angle / 2) + Real.sin (angle / 2) * if value then I else -I, ?_⟩
      rw [wireMatrix_rz, turnMatrix, Axis.z, ← Matrix.diagonal_one, ← Matrix.diagonal_smul,
        ← Matrix.diagonal_smul, Matrix.diagonal_add]
      congr 1
      funext value
      simp
  | _ => simp [diagonalPhase?] at diagonal

end Gate

namespace Instruction

/-- A diagonal gate weighs states by the values of its operands. -/
theorem operator_of_isDiagonal {gate : Gate ℝ} {qubits : List ℕ}
    (wellFormed : (onQubits gate qubits).WellFormed width) (diagonal : gate.isDiagonal) :
    ∃ weight : List Bool → ℂ, (onQubits gate qubits).operator environment =
      Matrix.diagonal fun state => weight (state.read qubits) := by
  by_cases single : gate.diagonalPhase?.isSome
  · rcases Gate.wireMatrix_eq_diagonal single with ⟨weight, matrix_eq⟩
    have arity : gate.arity = 1 := by
      cases gate <;> first | rfl | simp [Gate.diagonalPhase?] at single
    rcases wellFormed.operator_wire environment arity with ⟨qubit, rfl, inRange, operator_eq⟩
    refine ⟨fun values => weight (values.headD false), ?_⟩
    rw [operator_eq, matrix_eq, Operator.diagonal_eq_onWire _ qubit]
    apply Operator.onWire_congr
    intro state
    simp [Basis.read, inRange]
  · refine ⟨fun values => gate.table values values, ?_⟩
    have table_eq : gate.table = Matrix.diagonal fun values => gate.table values values := by
      cases gate with
      | cz | mcz controls | cp angle => simp [Gate.table, LocalMatrix.onesPhase]
      | _ => exact absurd diagonal single
    rw [operator_onQubits]
    nth_rewrite 1 [table_eq]
    rw [Operator.embed_diagonal]

theorem operator_of_isIdentity {instruction : Instruction ℝ}
    (wellFormed : instruction.WellFormed width) (identity : instruction.isIdentity) :
    instruction.operator environment = 1 := by
  rcases instruction with ⟨operation, qubits⟩
  unfold isIdentity at identity
  split at identity
  · rename_i isIdentity
    obtain rfl : operation = .apply .identity := isIdentity
    have wellFormed : (onQubits (.identity : Gate ℝ) qubits).WellFormed width := wellFormed
    rcases wellFormed.operator_wire environment rfl with ⟨qubit, _, _, operator_eq⟩
    exact operator_eq.trans (by rw [Gate.wireMatrix_identity, Operator.onWire_one])
  · cases identity

end Instruction

namespace Turn

theorem wireMatrix_commute (turn : Turn) (angle angle' : ℝ) :
    Commute (turn.gate angle).wireMatrix (turn.gate angle').wireMatrix := by
  rw [Commute, SemiconjBy, wireMatrix_mul, wireMatrix_mul, add_comm]

theorem operator_commute (turn : Turn) {angle angle' : ℝ} {qubits : List ℕ}
    (wellFormed : (Instruction.onQubits (turn.gate angle) qubits).WellFormed width)
    (wellFormed' : (Instruction.onQubits (turn.gate angle') qubits).WellFormed width) :
    Commute ((Instruction.onQubits (turn.gate angle) qubits).operator environment)
      ((Instruction.onQubits (turn.gate angle') qubits).operator environment) := by
  by_cases isDiagonal : (turn.gate angle).isDiagonal = true ∧ (turn.gate angle').isDiagonal = true
  · obtain ⟨weight, first_eq⟩ :=
      Instruction.operator_of_isDiagonal environment wellFormed isDiagonal.1
    obtain ⟨weight', second_eq⟩ :=
      Instruction.operator_of_isDiagonal environment wellFormed' isDiagonal.2
    rw [first_eq, second_eq]
    exact Operator.diagonal_commute_diagonal _ _
  · have single : ∀ angle : ℝ, (turn.gate angle).arity = 1 := by
      intro angle
      cases turn with
      | cp => exact absurd ⟨rfl, rfl⟩ isDiagonal
      | _ => rfl
    rcases wellFormed.operator_wire environment (single angle) with ⟨qubit, rfl, inRange, first_eq⟩
    rcases wellFormed'.operator_wire environment (single angle') with ⟨qubit', same, _, second_eq⟩
    obtain rfl : qubit = qubit' := by simpa using same
    rw [first_eq, second_eq]
    exact Operator.onWire_commute inRange (turn.wireMatrix_commute angle angle')

end Turn

namespace Instruction

theorem operator_commute_of_approxEq {gate other : Gate ℝ} {qubits : List ℕ}
    (wellFormed : (onQubits gate qubits).WellFormed width)
    (wellFormed' : (onQubits other qubits).WellFormed width) (same : gate.approxEq other) :
    Commute ((onQubits gate qubits).operator environment)
      ((onQubits other qubits).operator environment) := by
  rcases Gate.approxEq_cases same with ⟨rfl, _⟩ | ⟨turn, angle, angle', rfl, rfl, _⟩
  · exact Commute.refl _
  · exact turn.operator_commute environment wellFormed wellFormed'

/-- The matrices that pass the target of a controlled not. -/
theorem flipMatrix_commute_of_firstAxis {gate : Gate ℝ}
    (firstAxis : gate = .x ∨ ∃ angle, gate = .rx angle) :
    Commute gate.wireMatrix flipMatrix := by
  rcases firstAxis with rfl | ⟨angle, rfl⟩
  · rw [Gate.wireMatrix_x]
  · rw [Gate.wireMatrix_rx, turnMatrix, Axis.x]
    exact ((Commute.one_left _).smul_left _).add_left
      (((Commute.refl _).smul_left _).smul_left _)

theorem operator_commute_of_passes {gate : Gate ℝ} {qubits qubits' : List ℕ}
    (wellFormed : (onQubits gate qubits).WellFormed width)
    (wellFormed' : (onQubits (.cx : Gate ℝ) qubits').WellFormed width)
    (passes : (onQubits gate qubits).passesControlledNot (onQubits .cx qubits') gate) :
    Commute ((onQubits gate qubits).operator environment)
      ((onQubits .cx qubits').operator environment) := by
  obtain ⟨control, target, rfl, controlInRange, targetInRange, different⟩ :=
    wellFormed'.exists_pair rfl
  have cx_eq := operator_cx environment different targetInRange
  simp only [passesControlledNot, Bool.and_eq_true, beq_iff_eq] at passes
  rcases passes with ⟨arity, placed⟩
  rcases wellFormed.operator_wire environment arity with ⟨qubit, rfl, inRange, operator_eq⟩
  simp only [onQubits, Bool.or_eq_true, Bool.and_eq_true, beq_iff_eq] at placed
  rcases placed with ⟨rfl, isDiagonal⟩ | ⟨rfl, firstAxis⟩
  · rcases operator_of_isDiagonal environment wellFormed isDiagonal with ⟨weight, operator_eq⟩
    rw [operator_eq]
    change Commute _ ((double .cx qubit target).operator environment)
    rw [cx_eq]
    apply Operator.diagonal_commute_ofMap
    intro state
    simp [Basis.read, Operator.bit_flipWhere_other different]
  · have firstAxis : gate = .x ∨ ∃ angle, gate = .rx angle := by
      cases gate <;> simp_all
    rw [operator_eq]
    change Commute _ ((double .cx control qubit).operator environment)
    rw [cx_eq, Operator.ofMap_flipWhere targetInRange (Operator.ignores_bit different)]
    have commute := flipMatrix_commute_of_firstAxis firstAxis
    rw [Commute, SemiconjBy,
      Operator.onWire_mul inRange _
        ((Operator.ignores_bit different).map fun value => if value then flipMatrix else 1),
      Operator.onWire_mul inRange _ (Operator.ignores_const _)]
    apply Operator.onWire_congr
    intro state
    split
    · exact commute.eq
    · rw [mul_one, one_mul]

theorem operator_commute_of_gatesCommute {gate other : Gate ℝ} {qubits qubits' : List ℕ}
    (wellFormed : (onQubits gate qubits).WellFormed width)
    (wellFormed' : (onQubits other qubits').WellFormed width)
    (passes : gatesCommute (onQubits gate qubits) (onQubits other qubits') gate other) :
    Commute ((onQubits gate qubits).operator environment)
      ((onQubits other qubits').operator environment) := by
  simp only [gatesCommute, Bool.or_eq_true, Bool.and_eq_true] at passes
  rcases passes with (⟨isDiagonal, isDiagonal'⟩ | ⟨same, operands⟩) | passes
  · rcases operator_of_isDiagonal environment wellFormed isDiagonal with ⟨weight, first_eq⟩
    rcases operator_of_isDiagonal environment wellFormed' isDiagonal' with ⟨weight', second_eq⟩
    rw [first_eq, second_eq]
    exact Operator.diagonal_commute_diagonal _ _
  · obtain rfl : qubits = qubits' := eq_of_beq operands
    exact operator_commute_of_approxEq environment wellFormed wellFormed' same
  · split at passes
    · exact (operator_commute_of_passes environment wellFormed' wellFormed passes).symm
    · exact operator_commute_of_passes environment wellFormed wellFormed' passes
    · cases passes

/-- Instructions that pass the commutation test have operators that commute. -/
theorem operator_commute_of_commutes {first second : Instruction ℝ}
    (wellFormed : first.WellFormed width) (wellFormed' : second.WellFormed width)
    (passes : first.commutes second) :
    Commute (first.operator environment) (second.operator environment) := by
  simp only [commutes, Bool.or_eq_true, Bool.not_eq_true'] at passes
  rcases passes with ((identity | identity) | apart) | passes
  · rw [operator_of_isIdentity environment wellFormed identity]
    exact Commute.one_left _
  · rw [operator_of_isIdentity environment wellFormed' identity]
    exact Commute.one_right _
  · exact operator_commute_of_not_overlaps environment apart
  · rcases first with ⟨operation, qubits⟩
    rcases second with ⟨operation', qubits'⟩
    cases operation with
    | apply gate =>
        cases operation' with
        | apply other =>
            exact operator_commute_of_gatesCommute environment wellFormed wellFormed' passes
        | _ => cases passes
    | _ => cases passes

end Instruction

end Anyonic
