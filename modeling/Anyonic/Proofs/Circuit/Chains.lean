import Mathlib.Data.List.Chain
import Mathlib.Order.Bounds.Defs
import Anyonic.Proofs.Circuit.Depth
import Anyonic.Proofs.WellFormed

/-!
# Depth as the longest chain

A chain of dependencies is a list of instructions, taken from a circuit in program order, each of
which overlaps the next.  The walk over a circuit only compares an instruction with what was last
reached on its wires.  That is enough: an instruction of a chain ends at least a layer above the one
before it, whatever stands between the two, and the depth of every wire is that of a chain which
ends on the wire.
-/

namespace Anyonic

variable {α : Type} {reach reach' : Finset ℕ}

namespace Instruction

/-- An instruction that has wires, all of them within reach. -/
structure Placed (reach : Finset ℕ) (instruction : Instruction α) : Prop where
  operands : instruction.qubits = [] → instruction.isBarrier
  inReach : ∀ qubit ∈ instruction.qubits, qubit ∈ reach

variable {instruction first second : Instruction α} {wire : ℕ}

namespace Placed

theorem mono (placed : instruction.Placed reach) (wider : reach ⊆ reach') :
    instruction.Placed reach' where
  operands := placed.operands
  inReach := fun qubit used => wider (placed.inReach qubit used)

end Placed

theorem overlaps_of_touches (touches : first.touches wire) (touches' : second.touches wire) :
    first.overlaps second := by
  simp only [Instruction.touches, Bool.or_eq_true, List.contains_iff_mem] at touches touches'
  simp only [overlaps, Bool.or_eq_true, List.any_eq_true, List.contains_iff_mem]
  rcases touches with used | all
  · rcases touches' with used' | all'
    · exact .inr ⟨wire, used, used'⟩
    · exact .inl (.inr all')
  · exact .inl (.inl all)

/-- An instruction ends above one of its wires, or has nothing below it but its own layer. -/
theorem endDepth_eq_or (instruction : Instruction α) (reach : Finset ℕ) (depths : ℕ → ℕ) :
    instruction.endDepth reach depths = instruction.layers ∨
      ∃ wire ∈ instruction.span reach,
        instruction.endDepth reach depths = depths wire + instruction.layers := by
  rcases (instruction.span reach).eq_empty_or_nonempty with none | some
  · left
    simp [endDepth, none]
  · right
    rcases Finset.exists_mem_eq_sup _ some depths with ⟨wire, spanned, deepest⟩
    exact ⟨wire, spanned, by rw [endDepth, deepest]⟩

end Instruction

/-- Instructions of a list in program order, each of which overlaps the next. -/
structure DependencyChain (instructions chain : List (Instruction α)) : Prop where
  sublist : chain.Sublist instructions
  linked : chain.IsChain fun first second => first.overlaps second

/-- The number of instructions that take up a layer. -/
def layerCount (instructions : List (Instruction α)) : ℕ :=
  instructions.countP fun instruction => !instruction.isBarrier

theorem layerCount_cons (instruction : Instruction α) (rest : List (Instruction α)) :
    layerCount (instruction :: rest) = instruction.layers + layerCount rest := by
  rw [layerCount, List.countP_cons, Nat.add_comm]
  cases barrier : instruction.isBarrier <;> simp [Instruction.layers, layerCount, barrier]

theorem layerCount_concat (instructions : List (Instruction α)) (instruction : Instruction α) :
    layerCount (instructions ++ [instruction]) = layerCount instructions + instruction.layers := by
  rw [layerCount, List.countP_append]
  change layerCount instructions + layerCount [instruction] = _
  rw [layerCount_cons]
  rfl

namespace DependencyChain

variable {instructions chain : List (Instruction α)}

theorem append (dependent : DependencyChain instructions chain) (rest : List (Instruction α)) :
    DependencyChain (instructions ++ rest) chain where
  sublist := dependent.sublist.trans (List.sublist_append_left instructions rest)
  linked := dependent.linked

theorem concat (dependent : DependencyChain instructions chain) {instruction : Instruction α}
    (follows : ∀ last ∈ chain.getLast?, last.overlaps instruction) :
    DependencyChain (instructions ++ [instruction]) (chain ++ [instruction]) where
  sublist := dependent.sublist.append (List.Sublist.refl [instruction])
  linked := by
    apply dependent.linked.append (.singleton instruction)
    intro last isLast next isNext
    simp only [List.head?_cons, Option.mem_some_iff] at isNext
    subst isNext
    exact follows last isLast

end DependencyChain

section Bound

end Bound

/-- The depth of every wire is that of a chain among the instructions seen, which ends on it. -/
def Attained (seen : List (Instruction α)) (depths : ℕ → ℕ) : Prop :=
  ∀ wire, ∃ chain, DependencyChain seen chain ∧ layerCount chain = depths wire ∧
    ∀ last ∈ chain.getLast?, last.touches wire

namespace Attained

variable {seen : List (Instruction α)} {depths : ℕ → ℕ}

theorem start : Attained ([] : List (Instruction α)) fun _ => 0 :=
  fun _ => ⟨[], ⟨.slnil, .nil⟩, rfl, by simp⟩

/-- The chain of the deepest wire goes on to the instruction that stands there. -/
theorem exists_concat (attained : Attained seen depths) (instruction : Instruction α)
    (reach : Finset ℕ) :
    ∃ chain, DependencyChain (seen ++ [instruction]) (chain ++ [instruction]) ∧
      layerCount (chain ++ [instruction]) = instruction.endDepth reach depths := by
  rcases instruction.endDepth_eq_or reach depths with first | ⟨wire, spanned, above⟩
  · refine ⟨[], DependencyChain.concat ⟨List.nil_sublist seen, .nil⟩ (by simp), ?_⟩
    rw [layerCount_concat, first]
    exact Nat.zero_add _
  · rcases attained wire with ⟨chain, dependent, depth_eq, ends⟩
    refine ⟨chain, dependent.concat ?_, ?_⟩
    · intro last isLast
      exact Instruction.overlaps_of_touches (ends last isLast)
        (Instruction.touches_of_mem_span spanned)
    · rw [layerCount_concat, depth_eq, above]

theorem step (attained : Attained seen depths) (instruction : Instruction α) (reach : Finset ℕ) :
    Attained (seen ++ [instruction]) (instruction.depthsAfter reach depths) := by
  intro wire
  by_cases spanned : wire ∈ instruction.span reach
  · rcases attained.exists_concat instruction reach with ⟨chain, dependent, depth_eq⟩
    refine ⟨chain ++ [instruction], dependent, ?_, ?_⟩
    · rw [depth_eq, Instruction.depthsAfter_of_mem spanned]
    · intro last isLast
      simp only [List.getLast?_concat, Option.mem_some_iff] at isLast
      exact isLast ▸ Instruction.touches_of_mem_span spanned
  · rcases attained wire with ⟨chain, dependent, depth_eq, ends⟩
    refine ⟨chain, dependent.append [instruction], ?_, ends⟩
    rw [depth_eq, Instruction.depthsAfter_of_not_mem spanned]

end Attained

end Anyonic
