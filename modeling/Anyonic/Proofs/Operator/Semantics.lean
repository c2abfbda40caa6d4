import Anyonic.Proofs.Operator.Family
import Anyonic.Instruction

/-!
# Operators of instructions and circuits

What an instruction does to a register, in exact arithmetic.  A gate is the embedding of its matrix
on its operands.  Measurements, resets and barriers are not given a meaning of their own: they
stand for whatever operators on their own qubits an environment chooses, and a barrier without
operands for any operator at all.  A list of instructions is the product of its operators, the
first instruction acting first.
-/

namespace Anyonic

open Complex (I exp)

namespace LocalMatrix

/-- The matrix that takes values of the operands to other ones. -/
def ofMap (action : List Bool → List Bool) : LocalMatrix :=
  Matrix.of fun row column => if row = action column then 1 else 0

/-- The matrix that gives the values that are all one a phase. -/
def onesPhase (phase : ℂ) : LocalMatrix :=
  Matrix.diagonal fun values => if values.all id then phase else 1

/-- The matrix of a single operand. -/
def ofWire (matrix : Matrix Bool Bool ℂ) : LocalMatrix :=
  Matrix.of fun
    | [row], [column] => matrix row column
    | _, _ => 0

end LocalMatrix

/-- The matrix of a gate. -/
noncomputable def Gate.table : Gate ℝ → LocalMatrix
  | .cx =>
      LocalMatrix.ofMap fun
        | [control, target] => [control, control ^^ target]
        | values => values
  | .swap =>
      LocalMatrix.ofMap fun
        | [first, second] => [second, first]
        | values => values
  | .ccx =>
      LocalMatrix.ofMap fun
        | [control, other, target] => [control, other, (control && other) ^^ target]
        | values => values
  | .cz | .mcz _ => LocalMatrix.onesPhase (-1)
  | .cp angle => LocalMatrix.onesPhase (exp (angle * I))
  | gate => LocalMatrix.ofWire gate.wireMatrix

/-- The operators that stand for what is not a gate. -/
structure Environment (width : ℕ) where
  /-- The measurement of the listed qubits. -/
  measure : List ℕ → LocalMatrix
  /-- The reset of the listed qubits. -/
  reset : List ℕ → LocalMatrix
  /-- The barrier between the listed qubits. -/
  barrier : List ℕ → LocalMatrix
  /-- The barrier between all qubits. -/
  fullBarrier : Operator width

variable {width : ℕ}

/-- The operator of an instruction. -/
noncomputable def Instruction.operator (environment : Environment width)
    (instruction : Instruction ℝ) : Operator width :=
  match instruction.operation, instruction.qubits with
  | .apply gate, qubits => Operator.embed qubits gate.table
  | .measure, qubits => Operator.embed qubits (environment.measure qubits)
  | .reset, qubits => Operator.embed qubits (environment.reset qubits)
  | .barrier, [] => environment.fullBarrier
  | .barrier, qubits => Operator.embed qubits (environment.barrier qubits)

/-- The operator of a list of instructions, the first of which acts first. -/
noncomputable def denote (environment : Environment width) : List (Instruction ℝ) → Operator width
  | [] => 1
  | instruction :: rest => denote environment rest * instruction.operator environment

section Lists

variable (environment : Environment width)

@[simp]
theorem denote_nil : denote environment [] = 1 := rfl

@[simp]
theorem denote_cons (instruction : Instruction ℝ) (rest : List (Instruction ℝ)) :
    denote environment (instruction :: rest) =
      denote environment rest * instruction.operator environment :=
  rfl

@[simp]
theorem denote_append (first second : List (Instruction ℝ)) :
    denote environment (first ++ second) =
      denote environment second * denote environment first := by
  induction first with
  | nil => simp
  | cons instruction rest ih => simp [ih, mul_assoc]

theorem denote_commute {operator : Operator width} {instructions : List (Instruction ℝ)}
    (commute : ∀ instruction ∈ instructions, Commute operator (instruction.operator environment)) :
    Commute operator (denote environment instructions) := by
  induction instructions with
  | nil => exact Commute.one_right operator
  | cons instruction rest ih =>
      rw [denote_cons]
      apply Commute.mul_right
      · exact ih fun other listed => commute other (List.mem_cons_of_mem _ listed)
      · exact commute instruction List.mem_cons_self

end Lists

namespace Basis

/-- Whether all listed qubits are one. -/
def allOnes (state : Basis width) (qubits : List ℕ) : Bool := qubits.all state.bit

theorem allOnes_congr (state : Basis width) {first second : List ℕ}
    (same : ∀ qubit, qubit ∈ first ↔ qubit ∈ second) :
    state.allOnes first = state.allOnes second := by
  rw [Bool.eq_iff_iff]
  simp [allOnes, same]

@[simp]
theorem allOnes_nil (state : Basis width) : state.allOnes [] = true := rfl

@[simp]
theorem allOnes_cons (state : Basis width) (qubit : ℕ) (qubits : List ℕ) :
    state.allOnes (qubit :: qubits) = (state.bit qubit && state.allOnes qubits) :=
  rfl

@[simp]
theorem allOnes_append (state : Basis width) (first second : List ℕ) :
    state.allOnes (first ++ second) = (state.allOnes first && state.allOnes second) :=
  List.all_append

theorem allOnes_set (state : Basis width) {qubit : ℕ} {qubits : List ℕ} (apart : qubit ∉ qubits)
    (value : Bool) : (state.set qubit value).allOnes qubits = state.allOnes qubits := by
  induction qubits with
  | nil => rfl
  | cons other rest ih =>
      rw [allOnes_cons, allOnes_cons, ih (List.not_mem_of_not_mem_cons apart),
        state.bit_set_other (List.ne_of_not_mem_cons apart).symm]

end Basis

namespace Operator

theorem ignores_allOnes {qubit : ℕ} {qubits : List ℕ} (apart : qubit ∉ qubits) :
    Ignores qubit fun state : Basis width => state.allOnes qubits :=
  fun state value => state.allOnes_set apart value

/-- The operator that gives the states in which all listed qubits are one a phase. -/
def onesPhase (qubits : List ℕ) (phase : ℂ) : Operator width :=
  Matrix.diagonal fun state => if state.allOnes qubits then phase else 1

theorem onesPhase_congr {first second : List ℕ} (same : ∀ qubit, qubit ∈ first ↔ qubit ∈ second)
    (phase : ℂ) : (onesPhase first phase : Operator width) = onesPhase second phase := by
  rw [onesPhase, onesPhase]
  congr 1
  funext state
  rw [state.allOnes_congr same]

theorem onesPhase_mul (qubits : List ℕ) (phase phase' : ℂ) :
    (onesPhase qubits phase * onesPhase qubits phase' : Operator width) =
      onesPhase qubits (phase * phase') := by
  rw [onesPhase, onesPhase, onesPhase, Matrix.diagonal_mul_diagonal]
  congr 1
  funext state
  split <;> simp

theorem onesPhase_one (qubits : List ℕ) : (onesPhase qubits 1 : Operator width) = 1 := by
  simp [onesPhase]

theorem embed_diagonal (qubits : List ℕ) (weight : List Bool → ℂ) :
    (embed qubits (Matrix.diagonal weight) : Operator width) =
      Matrix.diagonal fun state => weight (state.read qubits) := by
  ext row column
  rw [embed_apply]
  by_cases same : row = column
  · subst same
    simp [Basis.AgreeOff.refl]
  · rw [Matrix.diagonal_apply_ne _ same]
    split
    · rename_i agree
      exact Matrix.diagonal_apply_ne _ fun equal => same (agree.eq_of_read_eq equal)
    · rfl

theorem embed_onesPhase (qubits : List ℕ) (phase : ℂ) :
    (embed qubits (LocalMatrix.onesPhase phase) : Operator width) = onesPhase qubits phase := by
  rw [LocalMatrix.onesPhase, embed_diagonal, onesPhase]
  congr 1
  funext state
  rw [Basis.read, List.all_map]
  rfl

theorem embed_ofWire (qubit : ℕ) (matrix : Matrix Bool Bool ℂ) :
    (embed [qubit] (LocalMatrix.ofWire matrix) : Operator width) =
      onWire qubit fun _ => matrix := by
  ext row column
  rfl

/-- A map of the values of the operands is the map of states that has its effect on them. -/
theorem embed_ofMap {qubits : List ℕ} {action : List Bool → List Bool}
    {effect : Basis width → Basis width}
    (reads : ∀ state, (effect state).read qubits = action (state.read qubits))
    (keeps : ∀ state, Basis.AgreeOff qubits (effect state) state) :
    (embed qubits (LocalMatrix.ofMap action) : Operator width) = ofMap effect := by
  ext row column
  have iff_eq : row = effect column ↔
      Basis.AgreeOff qubits row column ∧ row.read qubits = action (column.read qubits) := by
    constructor
    · rintro rfl
      exact ⟨keeps column, reads column⟩
    · rintro ⟨agree, same⟩
      exact (agree.trans (keeps column).symm).eq_of_read_eq (same.trans (reads column).symm)
  simp only [embed_apply, ofMap, LocalMatrix.ofMap, Matrix.of_apply, iff_eq, ite_and]

/-- Exchanging the values of two qubits. -/
def exchange (first second : ℕ) (state : Basis width) : Basis width :=
  (state.set first (state.bit second)).set second (state.bit first)

theorem exchange_comm (first second : ℕ) (state : Basis width) :
    exchange first second state = exchange second first state := by
  by_cases same : first = second
  · subst same
    rfl
  · exact Basis.set_comm state (Ne.symm same) _ _

theorem exchange_involutive {first second : ℕ} (different : first ≠ second)
    (firstInRange : first < width) (secondInRange : second < width) :
    (exchange first second ∘ exchange first second : Basis width → Basis width) = id := by
  funext state
  apply Basis.ext_bit
  intro qubit inRange
  by_cases atSecond : qubit = second
  · subst atSecond
    simp [exchange, secondInRange, firstInRange, Basis.bit_set_other, different]
  · by_cases atFirst : qubit = first
    · subst atFirst
      simp [exchange, firstInRange, secondInRange, Basis.bit_set_other, different]
    · simp [exchange, Basis.bit_set_other, atFirst, atSecond]

end Operator

namespace Instruction

variable (environment : Environment width)

/-- An instruction that does not stand between all qubits acts on its operands only. -/
theorem operator_eq_embed {instruction : Instruction ℝ} (bounded : instruction.spansAll = false) :
    ∃ entries, instruction.operator environment =
      Operator.embed instruction.qubits entries := by
  rcases instruction with ⟨operation, qubits⟩
  cases operation with
  | apply gate => exact ⟨_, rfl⟩
  | measure => exact ⟨_, rfl⟩
  | reset => exact ⟨_, rfl⟩
  | barrier =>
      cases qubits with
      | nil => cases bounded
      | cons qubit rest => exact ⟨_, rfl⟩

theorem operator_commute_of_not_overlaps {first second : Instruction ℝ}
    (apart : first.overlaps second = false) :
    Commute (first.operator environment) (second.operator environment) := by
  simp only [overlaps, Bool.or_eq_false_iff, List.any_eq_false, List.contains_eq_mem,
    decide_eq_true_eq] at apart
  rcases apart with ⟨⟨firstBounded, secondBounded⟩, disjoint⟩
  rcases operator_eq_embed environment firstBounded with ⟨entries, first_eq⟩
  rcases operator_eq_embed environment secondBounded with ⟨entries', second_eq⟩
  rw [first_eq, second_eq]
  exact Operator.embed_commute (fun _ listed listed' => disjoint _ listed listed') _ _

end Instruction

end Anyonic
