import Anyonic.Proofs.Operator.Semantics
import Anyonic.Proofs.WellFormed

/-!
# Operators of gates

The operator of every gate on well-formed operands in one of the three shapes of operators: the
single-qubit gates are wire operators, the controlled nots flip their target where all controls
are one, the exchange is a map of states, and the other gates are diagonal.
-/

namespace Anyonic

open Complex (I exp)

variable {width : ℕ} (environment : Environment width)

/-- The gates on single qubits are those that have a matrix of their own. -/
theorem Gate.isSome_matrix? {gate : Gate ℝ} (single : gate.arity = 1) (controlled : gate ≠ .mcz 0) :
    gate.matrix?.isSome := by
  cases gate with
  | mcz controls =>
      obtain rfl := controls_eq_zero_of_arity_eq_one single
      exact absurd rfl controlled
  | _ => first | rfl | cases single

namespace Instruction

theorem operator_onQubits (gate : Gate ℝ) (qubits : List ℕ) :
    (onQubits gate qubits).operator environment = Operator.embed qubits gate.table :=
  rfl

theorem operator_single {gate : Gate ℝ} (wire : gate.matrix?.isSome) (qubit : ℕ) :
    (single gate qubit).operator environment = Operator.onWire qubit fun _ => gate.wireMatrix := by
  have table_eq : gate.table = LocalMatrix.ofWire gate.wireMatrix := by
    cases gate <;> first | rfl | simp [Gate.matrix?] at wire
  rw [single, operator_onQubits, table_eq, Operator.embed_ofWire]

/-- A well-formed single-qubit gate is its matrix on its wire. -/
theorem WellFormed.operator_wire {gate : Gate ℝ} {qubits : List ℕ}
    (wellFormed : (onQubits gate qubits).WellFormed width) (arity : gate.arity = 1) :
    ∃ qubit, qubits = [qubit] ∧ qubit < width ∧
      (onQubits gate qubits).operator environment =
        Operator.onWire qubit fun _ => gate.wireMatrix := by
  rcases wellFormed.exists_wire arity with ⟨qubit, rfl, inRange⟩
  have controlled := (wellFormed_onQubits_iff.1 wellFormed).1
  exact ⟨qubit, rfl, inRange,
    operator_single environment (Gate.isSome_matrix? arity controlled) qubit⟩

theorem operator_cx {control target : ℕ} (different : control ≠ target)
    (inRange : target < width) :
    (double (.cx : Gate ℝ) control target).operator environment =
      Operator.ofMap (Operator.flipWhere target fun state => state.bit control) := by
  rw [double, operator_onQubits, Gate.table]
  apply Operator.embed_ofMap
  · intro state
    simp [Basis.read, Operator.bit_flipWhere_other different,
      Operator.bit_flipWhere_same inRange]
  · intro state
    exact Basis.AgreeOff.of_set state (by simp) _

theorem operator_ccx {control other target : ℕ} (different : control ≠ target)
    (different' : other ≠ target) (inRange : target < width) :
    (onQubits (.ccx : Gate ℝ) [control, other, target]).operator environment =
      Operator.ofMap
        (Operator.flipWhere target fun state => state.bit control && state.bit other) := by
  rw [operator_onQubits, Gate.table]
  apply Operator.embed_ofMap
  · intro state
    simp [Basis.read, Operator.bit_flipWhere_other different,
      Operator.bit_flipWhere_other different', Operator.bit_flipWhere_same inRange]
  · intro state
    exact Basis.AgreeOff.of_set state (by simp) _

theorem operator_swap {first second : ℕ} (different : first ≠ second)
    (firstInRange : first < width) (secondInRange : second < width) :
    (double (.swap : Gate ℝ) first second).operator environment =
      Operator.ofMap (Operator.exchange first second) := by
  rw [double, operator_onQubits, Gate.table]
  apply Operator.embed_ofMap
  · intro state
    simp [Basis.read, Operator.exchange, secondInRange, firstInRange,
      Basis.bit_set_other _ different]
  · intro state
    exact (Basis.AgreeOff.of_set _ (by simp) _).trans (Basis.AgreeOff.of_set state (by simp) _)

theorem operator_cz (qubits : List ℕ) :
    (onQubits (.cz : Gate ℝ) qubits).operator environment = Operator.onesPhase qubits (-1) :=
  Operator.embed_onesPhase qubits (-1)

theorem operator_mcz (controls : ℕ) (qubits : List ℕ) :
    (onQubits (.mcz controls : Gate ℝ) qubits).operator environment =
      Operator.onesPhase qubits (-1) :=
  Operator.embed_onesPhase qubits (-1)

theorem operator_cp (angle : ℝ) (qubits : List ℕ) :
    (onQubits (.cp angle) qubits).operator environment =
      Operator.onesPhase qubits (exp (angle * I)) :=
  Operator.embed_onesPhase qubits _

end Instruction

namespace Operator

/-- The weight that a phase matrix gives to the value of a qubit. -/
theorem onWire_phaseMatrix (qubit : ℕ) (angle : ℝ) (inRange : qubit < width) :
    (onWire qubit fun _ => phaseMatrix angle : Operator width) =
      Matrix.diagonal fun state => if state.bit qubit then exp (angle * I) else 1 := by
  rw [diagonal_eq_onWire _ qubit]
  apply onWire_congr
  intro state
  simp [phaseMatrix, inRange]

end Operator

end Anyonic
