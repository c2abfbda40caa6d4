import Anyonic.Proofs.Lowering.Locality

/-!
# Lowering stays within the operands

No rule reaches beyond the operands of the gate that it replaces, in whatever pass that gate came
up, so every instruction of a lowered circuit stands on qubits of the one instruction that it comes
from.  A lowered circuit is checked again as if it were new, and that check always passes: a circuit
is lowered whenever its instructions are, and keeps its width and its phase.
-/

namespace Anyonic

variable {α : Type} [Scalar α] {rules : LoweringRules}

namespace Lowering

/-- An instruction with as many operands as it takes, all of them among the given ones. -/
structure Within (operands : List ℕ) (instruction : Instruction α) : Prop where
  arity : instruction.validateArity = .ok ()
  subset : ∀ qubit ∈ instruction.qubits, qubit ∈ operands

variable {operands : List ℕ} {instructions : List (Instruction α)}

theorem within_expandAll (within : ∀ instruction ∈ instructions, Within operands instruction) :
    ∀ instruction ∈ expandAll rules instructions, Within operands instruction := by
  intro instruction listed
  rcases mem_expandAll_iff.1 listed with ⟨listed, -⟩ | ⟨source, listed, expanded, found, present⟩
  · exact within instruction listed
  · have sourceWithin := within source listed
    have part := (Rule.of_expand? sourceWithin.arity found).parts instruction present
    refine ⟨part.arity, ?_⟩
    intro qubit used
    apply sourceWithin.subset
    exact part.subset qubit used

theorem within_iterate_expandAll
    (within : ∀ instruction ∈ instructions, Within operands instruction) (passes : ℕ) :
    ∀ instruction ∈ (expandAll rules)^[passes] instructions, Within operands instruction := by
  induction passes generalizing instructions with
  | zero => exact within
  | succ passes ih => exact ih (within_expandAll within)

theorem within_elementaryParts {instruction : Instruction α}
    (arity : instruction.validateArity = .ok ()) :
    ∀ part ∈ elementaryParts rules instruction, Within instruction.qubits part := by
  apply within_iterate_expandAll
  simpa using (⟨arity, fun _ => id⟩ : Within instruction.qubits instruction)

end Lowering

section Lowering

variable {instructions lowered : List (Instruction α)}

theorem lower_singleton_eq_ok_iff {instruction : Instruction α} :
    lower rules [instruction] = .ok lowered ↔
      instruction.validateArity = .ok () ∧ Lowering.Lowerable rules instruction ∧
        lowered = Lowering.elementaryParts rules instruction := by
  simp [lower_eq_ok_iff, and_assoc]

/-- What is lowered falls into pieces, each within the operands of one instruction. -/
theorem exists_pieces_of_lower_eq_ok (accepted : lower rules instructions = .ok lowered) :
    ∃ pieces, lowered = pieces.flatten ∧
      List.Forall₂ (fun instruction piece => lower rules [instruction] = .ok piece ∧
        ∀ part ∈ piece, ∀ qubit ∈ part.qubits, qubit ∈ instruction.qubits) instructions pieces := by
  rcases lower_eq_ok_iff_forall₂.1 accepted with ⟨pieces, each, flatten_eq⟩
  refine ⟨pieces, flatten_eq, each.imp ?_⟩
  intro instruction piece own
  refine ⟨own, ?_⟩
  rcases lower_singleton_eq_ok_iff.1 own with ⟨arity, -, rfl⟩
  intro part listed
  exact (Lowering.within_elementaryParts arity part listed).subset

end Lowering

namespace Circuit

/-- The instructions of a circuit that has been lowered always pass the checks of a new circuit. -/
theorem lower_eq {circuit : Circuit α}
    (wellFormed : ∀ instruction ∈ circuit.instructions, instruction.WellFormed circuit.width) :
    circuit.lower rules = (Anyonic.lower rules circuit.instructions).map fun lowered =>
      { circuit with instructions := lowered } := by
  unfold Circuit.lower
  cases accepted : Anyonic.lower rules circuit.instructions with
  | error error => rfl
  | ok lowered =>
      have checked : ofInstructions circuit.width lowered = .ok ⟨circuit.width, lowered, .one⟩ :=
        ofInstructions_eq_ok_iff.2 ⟨wellFormed_of_lower_eq_ok wellFormed accepted, rfl⟩
      change CompileError.ofCircuit (ofInstructions circuit.width lowered) >>= _ = _
      rw [checked]
      rfl

/--
A circuit that can be built, whatever its phase, is never found malformed when it is lowered.  It is
lowered unless it has an operation without a rule, to a circuit of the same width and phase that is
well formed again, in which all that comes from an instruction is on operands of that instruction.
-/
theorem lower_within_operands (rules : LoweringRules) {width : ℕ}
    {instructions : List (Instruction α)} {circuit : Circuit α}
    (built : ofInstructions width instructions = .ok circuit) (phase : Amplitude α) :
    let source := { circuit with totalPhase := phase }
    (∀ error, source.lower rules ≠ .error (.circuit error)) ∧
    ((∃ lowered, source.lower rules = .ok lowered) ↔
      ∀ instruction ∈ instructions, Lowering.Lowerable rules instruction) ∧
    ∀ lowered, source.lower rules = .ok lowered →
      lowered.width = width ∧ lowered.totalPhase = phase ∧
      (∀ instruction ∈ lowered.instructions, instruction.validate width = .ok ()) ∧
      ∃ pieces, lowered.instructions = pieces.flatten ∧
        List.Forall₂ (fun instruction piece => Anyonic.lower rules [instruction] = .ok piece ∧
            ∀ part ∈ piece, ∀ qubit ∈ part.qubits, qubit ∈ instruction.qubits)
          instructions pieces := by
  rcases ofInstructions_eq_ok_iff.1 built with ⟨wellFormed, rfl⟩
  intro source
  have arity : ∀ instruction ∈ instructions, instruction.validateArity = .ok () :=
    fun instruction listed => (wellFormed instruction listed).arity
  have source_eq : source.lower rules = (Anyonic.lower rules instructions).map fun lowered =>
      ⟨width, lowered, phase⟩ := lower_eq wellFormed
  refine ⟨?_, ?_, ?_⟩
  · intro error failed
    cases outcome : Anyonic.lower rules instructions with
    | ok lowered =>
        rw [source_eq, outcome] at failed
        cases failed
    | error reason =>
        rw [source_eq, outcome] at failed
        cases failed
        exact (settles_lower arity).isRefusal outcome
  · rw [source_eq]
    simp only [map_eq_ok_iff, lower_eq_ok_iff]
    constructor
    · rintro ⟨-, -, ⟨accepted, -⟩, -⟩ instruction listed
      exact (accepted instruction listed).2
    · intro lowerable
      refine ⟨_, _, ⟨?_, rfl⟩, rfl⟩
      intro instruction listed
      exact ⟨arity instruction listed, lowerable instruction listed⟩
  · intro lowered answered
    rw [source_eq] at answered
    rcases map_eq_ok_iff.1 answered with ⟨elementary, accepted, rfl⟩
    refine ⟨rfl, rfl, ?_, exists_pieces_of_lower_eq_ok accepted⟩
    intro instruction listed
    apply (instruction.validate_eq_ok_iff width).2
    exact wellFormed_of_lower_eq_ok wellFormed accepted instruction listed

/-- A sign with three controls in no order, between a distant exchange and a measurement. -/
theorem lower_within_operands_three_controls :
    let instructions : List (Instruction Float) :=
      [.double .swap 4 1, .onQubits (.mcz 3) [3, 0, 4, 1], ⟨.measure, [2]⟩]
    let phase : Amplitude Float := ⟨0.0, -1.0⟩
    ofInstructions 5 instructions = .ok ⟨5, instructions, .one⟩ ∧
      ∃ lowered, Circuit.lower ⟨false⟩ ⟨5, instructions, phase⟩ = .ok lowered ∧
        lowered.width = 5 ∧ lowered.totalPhase = phase ∧
        ∀ instruction ∈ lowered.instructions, instruction.validate 5 = .ok () := by
  intro instructions phase
  have built : ofInstructions 5 instructions = .ok ⟨5, instructions, .one⟩ := rfl
  rcases lower_within_operands ⟨false⟩ built phase with ⟨-, answered, keeps⟩
  have lowerable : ∀ instruction ∈ instructions, Lowering.Lowerable ⟨false⟩ instruction := by
    simp only [instructions, List.forall_mem_cons, List.not_mem_nil, false_imp_iff, implies_true,
      and_true]
    exact ⟨⟨rfl, .inr (by rintro angle ⟨⟩), fun _ _ => List.cons_ne_nil _ _⟩,
      ⟨rfl, .inr (by rintro angle ⟨⟩), fun _ _ => List.cons_ne_nil _ _⟩,
      ⟨rfl, .inr (by rintro angle ⟨⟩), fun _ _ => List.cons_ne_nil _ _⟩⟩
  rcases answered.2 lowerable with ⟨lowered, accepted⟩
  rcases keeps lowered accepted with ⟨width_eq, phase_eq, valid, -⟩
  exact ⟨built, lowered, accepted, width_eq, phase_eq, valid⟩

end Circuit

end Anyonic
