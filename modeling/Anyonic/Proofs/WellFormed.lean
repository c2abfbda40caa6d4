import Mathlib.Data.List.Basic
import Anyonic.Circuit
import Anyonic.Proofs.Basic

/-!
# Well-formed instructions

What the checks of an instruction ask for: as many operands as the operation takes, all of them
below the width of the circuit, and none of them twice.
-/

namespace Anyonic

/-- A sign is on one qubit only if it has no controls. -/
theorem Gate.controls_eq_zero_of_arity_eq_one {α : Type} {controls : ℕ}
    (single : (Gate.mcz controls : Gate α).arity = 1) : controls = 0 :=
  (wrappingSucc_eq_add_one_iff.1 single).1

namespace Instruction

variable {α : Type} {width : ℕ}

/-- An instruction that fits into a circuit of the given width. -/
structure WellFormed (width : ℕ) (instruction : Instruction α) : Prop where
  arity : instruction.validateArity = .ok ()
  inRange : ∀ qubit ∈ instruction.qubits, qubit < width
  distinct : instruction.qubits.Nodup

@[simp]
theorem onQubits_qubits (gate : Gate α) (qubits : List ℕ) :
    (onQubits gate qubits).qubits = qubits :=
  rfl

theorem validateOperands_eq_ok_iff (gate : String) (width : ℕ) (earlier rest : List ℕ) :
    validateOperands gate width earlier rest = .ok () ↔
      (∀ qubit ∈ rest, qubit < width) ∧ rest.Nodup ∧ ∀ qubit ∈ rest, qubit ∉ earlier := by
  induction rest generalizing earlier with
  | nil => simp [validateOperands]
  | cons qubit rest ih =>
      rw [validateOperands]
      split
      · rename_i tooLarge
        simp only [reduceCtorEq, List.mem_cons, forall_eq_or_imp, false_iff]
        rintro ⟨⟨small, _⟩, _⟩
        omega
      · split
        · rename_i repeated
          simp only [reduceCtorEq, List.mem_cons, forall_eq_or_imp, false_iff]
          rintro ⟨_, _, fresh, _⟩
          exact fresh (by simpa using repeated)
        · rename_i small fresh
          rw [ih]
          simp only [List.mem_cons, List.nodup_cons, forall_eq_or_imp, not_or, Nat.not_le]
            at small ⊢
          have unseen : qubit ∉ earlier := by simpa using fresh
          constructor
          · rintro ⟨inRange, distinct, unused⟩
            exact ⟨⟨small, inRange⟩, ⟨fun repeated => (unused qubit repeated).1 rfl, distinct⟩,
              unseen, fun other listed => (unused other listed).2⟩
          · rintro ⟨⟨_, inRange⟩, ⟨unrepeated, distinct⟩, _, unused⟩
            exact ⟨inRange, distinct, fun other listed =>
              ⟨fun same => unrepeated (same ▸ listed), unused other listed⟩⟩

/-- The checks of an instruction pass exactly if it is well formed. -/
theorem validate_eq_ok_iff (instruction : Instruction α) (width : ℕ) :
    instruction.validate width = .ok () ↔ instruction.WellFormed width := by
  have operands := validateOperands_eq_ok_iff instruction.name width [] instruction.qubits
  simp only [List.not_mem_nil, not_false_eq_true, implies_true, and_true] at operands
  cases arity : instruction.validateArity with
  | error error =>
      simp only [validate, arity]
      constructor
      · intro passed
        cases passed
      · intro wellFormed
        cases arity.symm.trans wellFormed.arity
  | ok value =>
      simp only [validate, arity]
      constructor
      · intro passed
        rcases operands.1 passed with ⟨inRange, distinct⟩
        exact ⟨arity, inRange, distinct⟩
      · intro wellFormed
        exact operands.2 ⟨wellFormed.inRange, wellFormed.distinct⟩

theorem validateArity_apply_iff (gate : Gate α) (qubits : List ℕ) :
    (⟨.apply gate, qubits⟩ : Instruction α).validateArity = .ok () ↔
      gate ≠ .mcz 0 ∧ qubits.length = gate.arity := by
  unfold validateArity
  cases gate with
  | mcz controls =>
      cases controls with
      | zero => simp
      | succ controls =>
          simp only [ne_eq, Gate.mcz.injEq, Nat.add_eq_zero_iff, Nat.one_ne_zero, and_false,
            not_false_eq_true, true_and]
          split <;> simp_all
  | _ =>
      simp only [ne_eq, reduceCtorEq, not_false_eq_true, true_and]
      split <;> simp_all

theorem wellFormed_onQubits_iff {gate : Gate α} {qubits : List ℕ} :
    (onQubits gate qubits).WellFormed width ↔
      gate ≠ .mcz 0 ∧ qubits.length = gate.arity ∧ (∀ qubit ∈ qubits, qubit < width) ∧
        qubits.Nodup := by
  constructor
  · intro wellFormed
    rcases (validateArity_apply_iff gate qubits).1 wellFormed.arity with ⟨controlled, length⟩
    exact ⟨controlled, length, wellFormed.inRange, wellFormed.distinct⟩
  · rintro ⟨controlled, length, inRange, distinct⟩
    exact ⟨(validateArity_apply_iff gate qubits).2 ⟨controlled, length⟩, inRange, distinct⟩

theorem WellFormed.of_perm {gate : Gate α} {qubits qubits' : List ℕ}
    (wellFormed : (onQubits gate qubits).WellFormed width) (perm : qubits.Perm qubits') :
    (onQubits gate qubits').WellFormed width := by
  rcases wellFormed_onQubits_iff.1 wellFormed with ⟨controlled, length, inRange, distinct⟩
  exact wellFormed_onQubits_iff.2 ⟨controlled, perm.length_eq ▸ length,
    fun qubit listed => inRange qubit (perm.mem_iff.2 listed), perm.nodup distinct⟩

theorem WellFormed.exists_wire {gate : Gate α} {qubits : List ℕ}
    (wellFormed : (onQubits gate qubits).WellFormed width) (single : gate.arity = 1) :
    ∃ qubit, qubits = [qubit] ∧ qubit < width := by
  have length := ((validateArity_apply_iff gate qubits).1 wellFormed.arity).2
  rw [single, List.length_eq_one_iff] at length
  rcases length with ⟨qubit, rfl⟩
  exact ⟨qubit, rfl, wellFormed.inRange qubit List.mem_cons_self⟩

theorem WellFormed.pair {gate : Gate α} {first second : ℕ}
    (wellFormed : (onQubits gate [first, second]).WellFormed width) :
    first < width ∧ second < width ∧ first ≠ second := by
  have distinct : [first, second].Nodup := wellFormed.distinct
  exact ⟨wellFormed.inRange first (by simp), wellFormed.inRange second (by simp),
    by simpa using distinct⟩

theorem WellFormed.triple {gate : Gate α} {first second third : ℕ}
    (wellFormed : (onQubits gate [first, second, third]).WellFormed width) :
    first < width ∧ second < width ∧ third < width ∧
      first ≠ second ∧ first ≠ third ∧ second ≠ third := by
  have distinct : [first, second, third].Nodup := wellFormed.distinct
  simp only [List.nodup_cons, List.mem_cons, List.not_mem_nil, or_false, not_or] at distinct
  exact ⟨wellFormed.inRange first (by simp), wellFormed.inRange second (by simp),
    wellFormed.inRange third (by simp), distinct.1.1, distinct.1.2, distinct.2.1⟩

theorem WellFormed.exists_pair {gate : Gate α} {qubits : List ℕ}
    (wellFormed : (onQubits gate qubits).WellFormed width) (double : gate.arity = 2) :
    ∃ first second, qubits = [first, second] ∧ first < width ∧ second < width ∧
      first ≠ second := by
  have length := ((validateArity_apply_iff gate qubits).1 wellFormed.arity).2
  rw [double, List.length_eq_two] at length
  rcases length with ⟨first, second, rfl⟩
  exact ⟨first, second, rfl, wellFormed.pair⟩

theorem WellFormed.exists_triple {gate : Gate α} {qubits : List ℕ}
    (wellFormed : (onQubits gate qubits).WellFormed width) (triple : gate.arity = 3) :
    ∃ first second third, qubits = [first, second, third] ∧ first < width ∧ second < width ∧
      third < width ∧ first ≠ second ∧ first ≠ third ∧ second ≠ third := by
  have length := ((validateArity_apply_iff gate qubits).1 wellFormed.arity).2
  rw [triple, List.length_eq_three] at length
  rcases length with ⟨first, second, third, rfl⟩
  exact ⟨first, second, third, rfl, wellFormed.triple⟩

end Instruction

/-- A circuit is built exactly from well-formed instructions. -/
theorem Circuit.ofInstructions_eq_ok_iff {α : Type} [Scalar α] {width : ℕ}
    {instructions : List (Instruction α)} {circuit : Circuit α} :
    ofInstructions width instructions = .ok circuit ↔
      (∀ instruction ∈ instructions, instruction.WellFormed width) ∧
        circuit = ⟨width, instructions, .one⟩ := by
  have checked : instructions.forM (·.validate width) = .ok () ↔
      ∀ instruction ∈ instructions, instruction.WellFormed width := by
    induction instructions with
    | nil => simp [pure, Except.pure]
    | cons instruction rest ih =>
        rw [List.forM, bind_eq_ok_iff, List.forall_mem_cons, ← ih,
          ← instruction.validate_eq_ok_iff width]
        constructor
        · rintro ⟨_, head, tail⟩
          exact ⟨head, tail⟩
        · rintro ⟨head, tail⟩
          exact ⟨(), head, tail⟩
  rw [ofInstructions, bind_eq_ok_iff, ← checked]
  constructor
  · rintro ⟨_, valid, same⟩
    cases same
    exact ⟨valid, rfl⟩
  · rintro ⟨valid, rfl⟩
    exact ⟨(), valid, rfl⟩

end Anyonic
