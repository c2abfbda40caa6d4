import Mathlib.Order.SuccPred.Limit
import Anyonic.Proofs.Compile.Agreement
import Anyonic.Proofs.Peephole.Figures
import Anyonic.Proofs.Reading.Cancellation

/-!
# The report on a braid

A braid is read as a list of gates on single qubits, and rewriting steps leave it one.  Gates on
different qubits do not wait for each other, so the depth of such a list is the largest number of
gates on one qubit.  That number does not depend on a width, which is why the report, made at the
width that the gates use, tells the depth of the circuit, which is as wide as the braid.
-/

namespace Anyonic

variable {α : Type}

/-- A gate on one qubit. -/
def Instruction.IsSingle (instruction : Instruction α) : Prop :=
  ∃ gate wire, gate.arity = 1 ∧ instruction = .single gate wire

/-- The number of instructions on a wire alone. -/
def countOn (wire : ℕ) (instructions : List (Instruction α)) : ℕ :=
  instructions.countP (·.qubits = [wire])

section Depth

variable {instructions : List (Instruction α)}

theorem countOn_cons_single (wire other : ℕ) (gate : Gate α) :
    countOn wire (.single gate other :: instructions) =
      countOn wire instructions + if other = wire then 1 else 0 := by
  simp [countOn, List.countP_cons, Instruction.single, Instruction.onQubits]

/-- Every wire in use goes up by the number of its gates. -/
theorem deepestFrom_le_iff (single : ∀ instruction ∈ instructions, instruction.IsSingle)
    {reach : Finset ℕ} {depths : ℕ → ℕ} {bound : ℕ} :
    deepestFrom reach depths instructions ≤ bound ↔
      ∀ wire, 0 < countOn wire instructions →
        depths wire + countOn wire instructions ≤ bound := by
  induction instructions generalizing reach depths with
  | nil => simp [deepestFrom, countOn]
  | cons instruction rest ih =>
      rcases List.forall_mem_cons.1 single with ⟨⟨gate, wire, -, rfl⟩, tail⟩
      -- the gate is taken from the number of its wire and added to the depth
      have moved : ∀ other, Function.update depths wire (depths wire + 1) other +
          countOn other rest = depths other + countOn other (.single gate wire :: rest) := by
        intro other
        rw [countOn_cons_single]
        by_cases same : wire = other
        · subst same
          simp only [Function.update_self, if_true]
          omega
        · simp [Function.update_of_ne (Ne.symm same), same]
      rw [deepestFrom, Instruction.endDepth_single, Instruction.depthsAfter_single, max_le_iff,
        ih tail]
      simp only [moved, countOn_cons_single]
      constructor
      · rintro ⟨own, others⟩ other used
        rcases Nat.eq_zero_or_pos (countOn other rest) with none | some
        · split at used
          · rename_i same
            subst same
            simpa [none] using own
          · omega
        · exact others other some
      · intro bounded
        refine ⟨?_, fun other used => bounded other (by omega)⟩
        have := bounded wire
        simp only [if_true] at this
        omega

theorem dependencyDepth_le_iff (single : ∀ instruction ∈ instructions, instruction.IsSingle)
    {width bound : ℕ} :
    dependencyDepth instructions width ≤ bound ↔ ∀ wire, countOn wire instructions ≤ bound := by
  rw [dependencyDepth_eq, deepestFrom_le_iff single]
  apply forall_congr'
  intro wire
  omega

/-- The depth is the number of gates on the busiest wire, at every width. -/
theorem isGreatest_dependencyDepth
    (single : ∀ instruction ∈ instructions, instruction.IsSingle) (width : ℕ) :
    IsGreatest (Set.range fun wire => countOn wire instructions)
      (dependencyDepth instructions width) := by
  have least : IsLUB (Set.range fun wire => countOn wire instructions)
      (dependencyDepth instructions width) := by
    apply isLUB_iff_le_iff.2
    intro bound
    rw [dependencyDepth_le_iff single, mem_upperBounds, Set.forall_mem_range]
  have attained := least.mem_of_nonempty_of_not_isSuccLimit (Set.range_nonempty _)
    Order.not_isSuccLimit_of_isSuccArchimedean
  exact ⟨attained, least.1⟩

theorem dependencyDepth_congr (single : ∀ instruction ∈ instructions, instruction.IsSingle)
    (width width' : ℕ) :
    dependencyDepth instructions width = dependencyDepth instructions width' :=
  (isGreatest_dependencyDepth single width).unique (isGreatest_dependencyDepth single width')

end Depth

variable [Scalar α]

namespace Peephole

variable {granted : Comparison α → Prop} {source target : List (Instruction α)}

theorem StepBy.isSingle (step : StepBy granted source target)
    (single : ∀ instruction ∈ source, instruction.IsSingle) :
    ∀ instruction ∈ target, instruction.IsSingle := by
  intro instruction listed
  rcases step.mem_cases listed with kept |
    ⟨first, second, merged, qubits, -, present, -, product_eq, rfl⟩ |
    ⟨template, known, gate, used, wire, -, -, -, rfl⟩
  · exact single instruction kept
  · rcases single _ present with ⟨_, wire, -, same⟩
    cases same
    exact ⟨merged, wire, (Product.arity_of_ofGates? product_eq).1, rfl⟩
  · have free := Template.free_of_mem_all known (List.mem_append_right _ used)
    exact ⟨gate, wire, free.2.1, rfl⟩

theorem ReachesBy.isSingle (reaches : ReachesBy granted source target)
    (single : ∀ instruction ∈ source, instruction.IsSingle) :
    ∀ instruction ∈ target, instruction.IsSingle := by
  induction reaches with
  | refl => exact single
  | tail _ step ih => exact step.isSingle ih

end Peephole

theorem Anyon.arity_phaseGate (anyon : Anyon) (orientation : Orientation) :
    (anyon.phaseGate orientation : Gate α).arity = 1 ∧
      (anyon.phaseGate orientation : Gate α) ≠ .mcz 0 := by
  cases anyon <;> cases orientation <;> exact ⟨rfl, nofun⟩

namespace Generator

variable (anyon : Anyon)

theorem isSingle_gate (generator : Generator) :
    (generator.gate anyon : Instruction α).IsSingle := by
  rw [gate_eq]
  exact ⟨_, _, (anyon.arity_phaseGate _).1, rfl⟩

theorem wellFormed_gate {generator : Generator} {width : ℕ} (inRange : generator.index < width) :
    (generator.gate anyon : Instruction α).WellFormed width := by
  rcases anyon.arity_phaseGate (α := α) generator.orientation with ⟨arity, controlled⟩
  rw [gate_eq]
  apply Instruction.wellFormed_onQubits_iff.2
  exact ⟨controlled, arity.symm, by simpa using inRange, List.nodup_singleton _⟩

theorem countOn_gates (index : ℕ) (generators : List Generator) :
    countOn index (generators.map (·.gate anyon : Generator → Instruction α)) =
      generators.countP (·.index = index) := by
  rw [countOn, List.countP_map]
  congr 1
  funext generator
  simp [gate_eq, Instruction.single, Instruction.onQubits]

end Generator

/--
Every braid is read as a circuit of gates on single qubits, one qubit for each pair of neighbouring
strands, at every level.  The report tells the number of exchanges, how many of them stand at one
place at most, and the figures of the circuit.
-/
theorem BraidWord.exists_toCircuitWithReport_eq (anyon : Anyon) {strands : ℕ}
    {generators : List Generator} {word : BraidWord}
    (built : ofGenerators strands generators = .ok word) (level : ℕ) :
    ∃ (circuit : Circuit α) (report : OptimizationReport),
      word.toCircuitWithReport anyon level = .ok (circuit, report) ∧
      circuit.width = word.strands - 1 ∧
      (∀ instruction ∈ circuit.instructions,
        instruction.IsSingle ∧ instruction.validate circuit.width = .ok ()) ∧
      report.originalGates = word.generators.length ∧
      IsGreatest (Set.range fun index => word.generators.countP (·.index = index))
        report.originalDepth ∧
      report.optimizedGates = circuit.length ∧
      report.optimizedT = circuit.tCount ∧
      report.optimizedDepth = circuit.depth := by
  rcases ofGenerators_eq_ok_iff.1 built with ⟨enough, inRange, rfl⟩
  let source : List (Instruction α) := generators.map (·.gate anyon)
  have reaches : Peephole.Reaches source (optimize source level) := optimize_reaches source level
  have single : ∀ instruction ∈ source, instruction.IsSingle := by
    simp only [source, List.forall_mem_map]
    intro generator _
    exact generator.isSingle_gate anyon
  have wellFormed : ∀ instruction ∈ source, instruction.WellFormed (strands - 1) := by
    simp only [source, List.forall_mem_map]
    intro generator listed
    have := inRange generator listed
    exact Generator.wellFormed_gate anyon (by omega)
  have single' := reaches.isSingle single
  have wellFormed' := reaches.wellFormed wellFormed
  have built' := Circuit.ofInstructions_eq_ok_iff.2 ⟨wellFormed', rfl⟩
  refine ⟨⟨strands - 1, optimize source level, totalPhase anyon ⟨strands, generators⟩⟩,
    (optimizeWithReport source level).2, ?_, rfl, ?_, ?_, ?_, rfl, rfl, ?_⟩
  · change (CompileError.ofCircuit (Circuit.ofInstructions (strands - 1) (optimize source level))
      >>= _) = _
    rw [built']
    rfl
  · intro instruction listed
    refine ⟨single' instruction listed, ?_⟩
    exact (instruction.validate_eq_ok_iff _).2 (wellFormed' instruction listed)
  · exact List.length_map _
  · simp only [← Generator.countOn_gates (α := α) anyon]
    exact isGreatest_dependencyDepth single _
  · exact dependencyDepth_congr single' _ _

/-- Three exchanges at one place, of which two undo each other, and one at another. -/
theorem BraidWord.exists_toCircuitWithReport_eq_two_places :
    let word : BraidWord := ⟨4, [⟨2, .clockwise⟩, ⟨0, .clockwise⟩, ⟨2, .counterClockwise⟩,
      ⟨2, .clockwise⟩]⟩
    ofGenerators 4 word.generators = .ok word ∧
      ∃ (circuit : Circuit Float) (report : OptimizationReport),
        word.toCircuitWithReport .ising 2 = .ok (circuit, report) ∧ circuit.width = 3 ∧
          report.originalGates = 4 ∧ report.originalDepth = 3 ∧
          report.optimizedDepth = circuit.depth := by
  intro word
  have built : ofGenerators 4 word.generators = .ok word := rfl
  rcases exists_toCircuitWithReport_eq (α := Float) .ising built 2 with
    ⟨circuit, report, read, width_eq, -, gates_eq, greatest, -, -, depth_eq⟩
  have most : ∀ index, word.generators.countP (·.index = index) ≤ 3 := by
    intro index
    simp only [word, List.countP_cons, List.countP_nil, decide_eq_true_eq]
    split_ifs <;> omega
  have busiest : IsGreatest (Set.range fun index => word.generators.countP (·.index = index)) 3 :=
    ⟨⟨2, rfl⟩, Set.forall_mem_range.2 most⟩
  exact ⟨built, circuit, report, read, width_eq, gates_eq, greatest.unique busiest, depth_eq⟩

end Anyonic
