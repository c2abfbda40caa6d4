import Anyonic.Proofs.Operator.Gates

/-!
# Phased maps

Controlled nots and phases take every basis state to a basis state with a phase.  Lists of them
compose like the maps, and the phases add up along the way.
-/

namespace Anyonic

open Complex (I exp)

variable {width : ℕ}

/-- An angle where a condition holds, and none elsewhere. -/
def angleIf (condition : Bool) (angle : ℝ) : ℝ := if condition then angle else 0

namespace Operator

/-- The operator that gives every state a phase. -/
noncomputable def phases (angle : Basis width → ℝ) : Operator width :=
  Matrix.diagonal fun state => exp (angle state * I)

theorem phases_mul (first second : Basis width → ℝ) :
    phases first * phases second = phases fun state => first state + second state := by
  rw [phases, phases, phases, Matrix.diagonal_mul_diagonal]
  congr 1
  funext state
  rw [← Complex.exp_add, ← add_mul, Complex.ofReal_add]

theorem phases_zero : (phases fun _ => 0 : Operator width) = 1 := by
  simp [phases]

theorem onesPhase_eq_phases (qubits : List ℕ) (angle : ℝ) :
    (onesPhase qubits (exp (angle * I)) : Operator width) =
      phases fun state => angleIf (state.allOnes qubits) angle := by
  rw [onesPhase, phases]
  congr 1
  funext state
  rw [angleIf]
  split <;> simp

theorem onesPhase_neg_one (qubits : List ℕ) :
    (onesPhase qubits (-1) : Operator width) =
      phases fun state => angleIf (state.allOnes qubits) Real.pi := by
  rw [← onesPhase_eq_phases, Complex.exp_pi_mul_I]

theorem onWire_phaseMatrix_eq_phases {qubit : ℕ} (inRange : qubit < width) (angle : ℝ) :
    (onWire qubit fun _ => phaseMatrix angle : Operator width) =
      phases fun state => angleIf (state.bit qubit) angle := by
  rw [onWire_phaseMatrix qubit angle inRange, phases]
  congr 1
  funext state
  rw [angleIf]
  split <;> simp

/-- Phases that ignore a qubit commute with what is done to it. -/
theorem phases_commute_onWire {qubit : ℕ} (inRange : qubit < width) {angle : Basis width → ℝ}
    (ignores : Ignores qubit angle) (matrix : Matrix Bool Bool ℂ) :
    Commute (phases angle) (onWire qubit fun _ => matrix) := by
  have scalar_eq : phases angle =
      onWire qubit fun state => exp (angle state * I) • (1 : Matrix Bool Bool ℂ) := by
    rw [phases, diagonal_eq_onWire _ qubit]
    apply onWire_congr
    intro state
    simp only [ignores state]
    rw [← Matrix.smul_one_eq_diagonal]
  rw [Commute, SemiconjBy, scalar_eq, onWire_mul inRange _ (ignores_const _),
    onWire_mul inRange _ (ignores.map fun angle => exp (angle * I) • (1 : Matrix Bool Bool ℂ))]
  simp

end Operator

/-- A list of instructions that takes every basis state to another one and gives it a phase. -/
def PhasedMap (environment : Environment width) (instructions : List (Instruction ℝ))
    (action : Basis width → Basis width) (angle : Basis width → ℝ) : Prop :=
  denote environment instructions = Operator.ofMap action * Operator.phases angle

namespace PhasedMap

variable {environment : Environment width} {first second : List (Instruction ℝ)}
  {action action' : Basis width → Basis width} {angle angle' : Basis width → ℝ}

theorem of_phases (operator_eq : denote environment first = Operator.phases angle) :
    PhasedMap environment first id angle := by
  rw [PhasedMap, Operator.ofMap_id, one_mul, operator_eq]

theorem of_map (operator_eq : denote environment first = Operator.ofMap action) :
    PhasedMap environment first action fun _ => 0 := by
  rw [PhasedMap, Operator.phases_zero, mul_one, operator_eq]

/-- The phases behind a map are those of the states it leads to. -/
theorem append (phased : PhasedMap environment first action angle)
    (phased' : PhasedMap environment second action' angle') :
    PhasedMap environment (first ++ second) (action' ∘ action)
      fun state => angle state + angle' (action state) := by
  have behind : Operator.phases angle' * Operator.ofMap action =
      Operator.ofMap action * Operator.phases (angle' ∘ action) :=
    Operator.diagonal_mul_ofMap _ _
  rw [PhasedMap, denote_append, phased, phased']
  calc Operator.ofMap action' * Operator.phases angle' *
          (Operator.ofMap action * Operator.phases angle)
      = Operator.ofMap action' * (Operator.phases angle' * Operator.ofMap action) *
          Operator.phases angle := by simp only [mul_assoc]
    _ = Operator.ofMap action' * Operator.ofMap action *
          (Operator.phases (angle' ∘ action) * Operator.phases angle) := by
        rw [behind]
        simp only [mul_assoc]
    _ = Operator.ofMap (action' ∘ action) *
          Operator.phases fun state => angle state + angle' (action state) := by
        rw [Operator.ofMap_mul, Operator.phases_mul]
        simp only [Function.comp_apply, add_comm]

/-- A list of phased maps that leads every state back gives phases. -/
theorem eq_phases {total : Basis width → ℝ} (phased : PhasedMap environment first action angle)
    (back : ∀ state, action state = state) (total_eq : ∀ state, angle state = total state) :
    denote environment first = Operator.phases total := by
  have action_eq : action = id := funext back
  rw [phased, action_eq, Operator.ofMap_id, one_mul, funext total_eq]

theorem wire {gate : Gate ℝ} {turn : ℝ} (single : gate.matrix?.isSome)
    (matrix_eq : gate.wireMatrix = phaseMatrix turn) {qubit : ℕ} (inRange : qubit < width) :
    PhasedMap environment [.single gate qubit] id
      fun state => angleIf (state.bit qubit) turn := by
  apply of_phases
  rw [denote_cons, denote_nil, one_mul, Instruction.operator_single environment single, matrix_eq,
    Operator.onWire_phaseMatrix_eq_phases inRange]

end PhasedMap

end Anyonic
