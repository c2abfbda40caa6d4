import Anyonic.Proofs.Peephole.WellFormed
import Anyonic.Scalar.Double

/-!
# What the optimiser leaves alone

Of the rewriting steps only the cancellation of inverses touches anything but single-qubit gates,
and it touches nothing but gates.  Measurements, resets and barriers therefore all stay, gates on
several qubits can only go, and neither change places.  A single-qubit gate that is put in stands on
the wire of those that it replaces.
-/

namespace Anyonic

variable {α : Type}

namespace Instruction

/-- Whether the operation is a gate on more than one qubit. -/
def isMultiQubit (instruction : Instruction α) : Bool :=
  instruction.gate?.any fun gate => 2 ≤ gate.arity

theorem singleQubitGate?_onQubits {gate : Gate α} (single : gate.arity = 1) (qubits : List ℕ) :
    (onQubits gate qubits).singleQubitGate? = some gate := by
  simp [singleQubitGate?, gate?, onQubits, single]

theorem singleQubitGate?_of_isIdentity {instruction : Instruction α}
    (identity : instruction.isIdentity) : instruction.singleQubitGate? ≠ none := by
  unfold isIdentity at identity
  split at identity
  · rename_i operation_eq
    simp [singleQubitGate?, gate?, operation_eq, Gate.arity]
  · cases identity

theorem singleQubitGate?_of_isMultiQubit {instruction : Instruction α}
    (multiQubit : instruction.isMultiQubit) : instruction.singleQubitGate? = none := by
  simp only [isMultiQubit, Option.any_eq_true, decide_eq_true_eq] at multiQubit
  rcases multiQubit with ⟨gate, isGate, several⟩
  simp only [singleQubitGate?, isGate, Option.filter_eq_none_iff, Option.some.injEq, beq_iff_eq]
  rintro other rfl
  omega

theorem wire?_onQubits {gate : Gate α} (single : gate.arity = 1) (qubits : List ℕ) :
    (onQubits gate qubits).wire? = qubits.head? := by
  simp [wire?, singleQubitGate?_onQubits single]

theorem WellFormed.wire?_eq_some_iff {width : ℕ} {instruction : Instruction α}
    (wellFormed : instruction.WellFormed width) {wire : ℕ} :
    instruction.wire? = some wire ↔
      instruction.singleQubitGate?.isSome ∧ instruction.qubits = [wire] := by
  constructor
  · intro isWire
    rcases exists_of_wire? isWire with ⟨gate, instruction_eq, single, head⟩
    rw [instruction_eq] at wellFormed ⊢
    rcases wellFormed.exists_wire single with ⟨qubit, qubits_eq, -⟩
    rw [qubits_eq] at head ⊢
    cases head
    simp [singleQubitGate?_onQubits single]
  · rintro ⟨single, qubits_eq⟩
    rcases Option.isSome_iff_exists.1 single with ⟨gate, isGate⟩
    simp [wire?, isGate, qubits_eq]

end Instruction

namespace Peephole

section Filter

variable {keep : Instruction α → Bool}
  (several : ∀ instruction, keep instruction → instruction.singleQubitGate? = none)
include several

theorem not_keep_onQubits {gate : Gate α} (single : gate.arity = 1) (qubits : List ℕ) :
    keep (.onQubits gate qubits) = false := by
  rw [Bool.eq_false_iff]
  intro kept
  cases (several _ kept).symm.trans (Instruction.singleQubitGate?_onQubits single qubits)

variable [Scalar α]

theorem Taken.filter_eq {wire : ℕ} {gates : List (Gate α)} {rest remaining : List (Instruction α)}
    (taken : Taken wire gates rest remaining) : remaining.filter keep = rest.filter keep := by
  induction taken with
  | done => rfl
  | @take _ _ next _ _ isWire _ _ ih =>
      rcases Instruction.exists_of_wire? isWire with ⟨own, next_eq, single, -⟩
      have dropped : keep next = false := by
        rw [next_eq]
        exact not_keep_onQubits several single _
      simp [ih, dropped]
  | pass _ _ ih => simp [List.filter_cons, ih]

/-- Beside single-qubit gates a step changes nothing, or it drops two gates. -/
theorem StepBy.filter_cases {granted : Comparison α → Prop}
    {source target : List (Instruction α)} (step : StepBy granted source target) :
    target.filter keep = source.filter keep ∨
      ∃ before between after first second, first.undoneBy second ∧
        source = before ++ first :: (between ++ second :: after) ∧
        target = before ++ (between ++ after) := by
  cases step with
  | @drop before after instruction identity =>
      left
      have dropped : keep instruction = false := by
        rw [Bool.eq_false_iff]
        intro kept
        exact Instruction.singleQubitGate?_of_isIdentity identity (several _ kept)
      simp [dropped]
  | @cancel before between after first second undone commute =>
      exact .inr ⟨before, between, after, first, second, undone, rfl, rfl⟩
  | @merge before after first second product found =>
      left
      rcases Product.exists_of_ofInstructions? found with
        ⟨gate, other, qubits, rfl, rfl, single, single', product_eq⟩
      have put : (product.instructions qubits).filter keep = [] := by
        cases product with
        | nothing => rfl
        | one merged =>
            have single := (Product.arity_of_ofGates? product_eq).1
            simp [Product.instructions, not_keep_onQubits several single]
      simp [put, not_keep_onQubits several single, not_keep_onQubits several single']
  | @template before rest replacement remaining instruction found =>
      left
      rcases exists_of_matchTemplate? found with
        ⟨wire, template, listed, isWire, -, taken, rfl⟩
      rcases Instruction.exists_of_wire? isWire with ⟨own, instruction_eq, single, -⟩
      have dropped : keep instruction = false := by
        rw [instruction_eq]
        exact not_keep_onQubits several single _
      have put : (template.replacement.map (Instruction.single · wire)).filter keep = [] := by
        simp only [List.filter_eq_nil_iff, List.mem_map]
        rintro _ ⟨gate, used, rfl⟩
        have single := (Template.free_of_mem_all listed (by simp [used] : gate ∈ _)).2.1
        simp [Instruction.single, not_keep_onQubits several single]
      simp [put, dropped, taken.filter_eq several]

theorem StepBy.filter_sublist {granted : Comparison α → Prop}
    {source target : List (Instruction α)} (step : StepBy granted source target) :
    (target.filter keep).Sublist (source.filter keep) := by
  rcases step.filter_cases several with same | ⟨before, between, after, first, second, -, rfl, rfl⟩
  · rw [same]
  · apply List.Sublist.filter
    apply (List.Sublist.refl before).append
    apply List.Sublist.cons
    exact (List.Sublist.refl between).append (List.sublist_cons_self _ _)

theorem ReachesBy.filter_sublist {granted : Comparison α → Prop}
    {source target : List (Instruction α)}
    (reaches : ReachesBy granted source target) :
    (target.filter keep).Sublist (source.filter keep) := by
  induction reaches with
  | refl => exact .refl _
  | tail _ step ih => exact (step.filter_sublist several).trans ih

end Filter

variable [Scalar α]

/-- No step touches what is not a gate. -/
theorem StepBy.filter_gate?_eq {granted : Comparison α → Prop}
    {source target : List (Instruction α)} (step : StepBy granted source target) :
    target.filter (·.gate?.isNone) = source.filter (·.gate?.isNone) := by
  have several : ∀ instruction : Instruction α, instruction.gate?.isNone →
      instruction.singleQubitGate? = none := by
    intro instruction notGate
    simp [Instruction.singleQubitGate?, Option.isNone_iff_eq_none.1 notGate]
  rcases step.filter_cases several with
    same | ⟨before, between, after, first, second, undone, rfl, rfl⟩
  · exact same
  · rcases Instruction.exists_of_undoneBy undone with ⟨gate, other, -, -, rfl, rfl, -⟩
    simp [Instruction.gate?, Instruction.onQubits]

theorem ReachesBy.filter_gate?_eq {granted : Comparison α → Prop}
    {source target : List (Instruction α)}
    (reaches : ReachesBy granted source target) :
    target.filter (·.gate?.isNone) = source.filter (·.gate?.isNone) := by
  induction reaches with
  | refl => rfl
  | tail _ step ih => exact step.filter_gate?_eq.trans ih

/-- A wire with a single-qubit gate has had one before. -/
theorem StepBy.exists_wire {granted : Comparison α → Prop}
    {source target : List (Instruction α)} (step : StepBy granted source target)
    {instruction : Instruction α} (listed : instruction ∈ target) {wire : ℕ}
    (isWire : instruction.wire? = some wire) : ∃ origin ∈ source, origin.wire? = some wire := by
  rcases step.mem_cases listed with
    kept | ⟨gate, other, merged, qubits, -, present, single, product_eq, rfl⟩ |
      ⟨template, known, gate, used, wire', origin, present, isWire', rfl⟩
  · exact ⟨instruction, kept, isWire⟩
  · refine ⟨_, present, ?_⟩
    rw [Instruction.wire?_onQubits (Product.arity_of_ofGates? product_eq).1] at isWire
    rwa [Instruction.wire?_onQubits single]
  · have single := (Template.free_of_mem_all known (by simp [used] : gate ∈ _)).2.1
    rw [Instruction.single, Instruction.wire?_onQubits single] at isWire
    cases isWire
    exact ⟨origin, present, isWire'⟩

theorem ReachesBy.exists_wire {granted : Comparison α → Prop}
    {source target : List (Instruction α)} (reaches : ReachesBy granted source target)
    {instruction : Instruction α} (listed : instruction ∈ target) {wire : ℕ}
    (isWire : instruction.wire? = some wire) : ∃ origin ∈ source, origin.wire? = some wire := by
  induction reaches generalizing instruction with
  | refl => exact ⟨instruction, listed, isWire⟩
  | tail _ step ih =>
      rcases step.exists_wire listed isWire with ⟨origin, present, isWire⟩
      exact ih present isWire

end Peephole

/--
What the optimiser may touch: a well-formed list stays well formed, measurements, resets and
barriers stay as they are, gates on several qubits may go but neither move nor change, also with
respect to measurements and barriers, and single-qubit gates only stand where there have been
single-qubit gates.
-/
theorem optimize_frame [Scalar α] {width : ℕ} {instructions : List (Instruction α)}
    (valid : ∀ instruction ∈ instructions, instruction.validate width = .ok ()) (level : ℕ) :
    let optimized := optimize instructions level
    (∀ instruction ∈ optimized, instruction.validate width = .ok ()) ∧
    optimized.filter (·.gate?.isNone) = instructions.filter (·.gate?.isNone) ∧
    (optimized.filter (·.isMultiQubit)).Sublist (instructions.filter (·.isMultiQubit)) ∧
    (optimized.filter (·.singleQubitGate?.isNone)).Sublist
      (instructions.filter (·.singleQubitGate?.isNone)) ∧
    ∀ instruction ∈ optimized, instruction.singleQubitGate?.isSome →
      ∃ qubit, instruction.qubits = [qubit] ∧
        ∃ origin ∈ instructions, origin.singleQubitGate?.isSome ∧ origin.qubits = [qubit] := by
  intro optimized
  have reaches : Peephole.Reaches instructions optimized := optimize_reaches instructions level
  have wellFormed : ∀ instruction ∈ instructions, instruction.WellFormed width := by
    intro instruction listed
    exact (instruction.validate_eq_ok_iff width).1 (valid instruction listed)
  have wellFormed' := reaches.wellFormed wellFormed
  refine ⟨?_, reaches.filter_gate?_eq, ?_, ?_, ?_⟩
  · intro instruction listed
    exact (instruction.validate_eq_ok_iff width).2 (wellFormed' instruction listed)
  · exact reaches.filter_sublist fun _ => Instruction.singleQubitGate?_of_isMultiQubit
  · exact reaches.filter_sublist fun _ => Option.isNone_iff_eq_none.1
  · intro instruction listed isSingle
    rcases Option.isSome_iff_exists.1 isSingle with ⟨gate, isGate⟩
    rcases Instruction.exists_of_singleQubitGate? isGate with ⟨instruction_eq, single⟩
    have own := wellFormed' instruction listed
    rw [instruction_eq] at own
    rcases own.exists_wire single with ⟨qubit, qubits_eq, -⟩
    have isWire : instruction.wire? = some qubit :=
      (wellFormed' instruction listed).wire?_eq_some_iff.2 ⟨isSingle, qubits_eq⟩
    rcases reaches.exists_wire listed isWire with ⟨origin, present, isWire⟩
    have origin_single := (wellFormed origin present).wire?_eq_some_iff.1 isWire
    exact ⟨qubit, qubits_eq, origin, present, origin_single⟩

/-- Two T gates are merged on either side of a barrier, two controlled nots cancel, and what is not
a gate is found again in its order. -/
theorem optimize_frame_around_barrier :
    let gates : List (Instruction Float) :=
      [.single .t 0, .single .t 0, ⟨.measure, [3]⟩, .double .cx 1 2, .double .cx 1 2,
        ⟨.barrier, []⟩, .single .t 0, .single .t 0, .double .cz 0 1, ⟨.reset, [2]⟩]
    (∀ instruction ∈ gates, instruction.validate 4 = .ok ()) ∧
      optimize gates 1 = [.single .s 0, ⟨.measure, [3]⟩, ⟨.barrier, []⟩, .single .s 0,
        .double .cz 0 1, ⟨.reset, [2]⟩] ∧
      (optimize gates 2).filter (·.gate?.isNone) =
        [⟨.measure, [3]⟩, ⟨.barrier, []⟩, ⟨.reset, [2]⟩] := by
  intro gates
  have valid : ∀ instruction ∈ gates, instruction.validate 4 = .ok () := by
    simp only [gates, List.forall_mem_cons, List.not_mem_nil, false_imp_iff, implies_true, and_true]
    exact ⟨rfl, rfl, rfl, rfl, rfl, rfl, rfl, rfl, rfl, rfl⟩
  refine ⟨valid, rfl, ?_⟩
  rw [(optimize_frame valid 2).2.1]
  rfl

end Anyonic
