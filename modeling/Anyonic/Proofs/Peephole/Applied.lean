import Anyonic.Proofs.Double.Laws
import Anyonic.Proofs.Peephole.Levels

/-!
# The passes of a report

A report names the passes whose results differ from what they were given.  Every change makes the
list shorter and nothing that comes later makes up for it, so that passes are named exactly if
instructions have been removed.  This takes lists that equal themselves: an undefined angle does
not, and every pass seems to change a list that has one.  No run comes to such a list from one
without undefined angles, although infinite angles may have an undefined sum, because a rotation by
what is not a number counts as none.
-/

namespace Anyonic

namespace Peephole

section Run

variable {α : Type} [Scalar α]

namespace Progress

variable {progress : Progress α}

omit [Scalar α] in
theorem nodup_record (distinct : progress.applied.Nodup) (name : String)
    (instructions : List (Instruction α)) :
    (progress.record name instructions).applied.Nodup := by
  simp only [record]
  split
  · exact distinct
  · rename_i fresh
    apply distinct.append (List.nodup_singleton name)
    simpa using fresh

omit [Scalar α] in
theorem record_applied_ne_nil (name : String) (instructions : List (Instruction α)) :
    (progress.record name instructions).applied ≠ [] := by
  simp only [record]
  split
  · rename_i known
    intro none
    simp [none] at known
  · simp

end Progress

namespace Pipeline

theorem nodup_applied_run (pipeline : Pipeline α) (instructions : List (Instruction α)) :
    (pipeline.run instructions).applied.Nodup := by
  apply sweepUpTo_invariant fun progress => progress.applied.Nodup
  · intro pass _ state distinct
    rcases attempt_cases pass state with same | ⟨-, changed⟩
    · rwa [same]
    · rw [changed]
      exact Progress.nodup_record distinct _ _
  · exact List.nodup_nil

/-- What the names of the passes say about the list that has been reached. -/
structure Tells (source : List (Instruction α)) (progress : Progress α) : Prop where
  reaches : Reaches source progress.instructions
  unchanged : progress.applied = [] → progress.instructions = source
  shorter : progress.applied ≠ [] → progress.instructions.length < source.length

variable {source : List (Instruction α)}
  (selfEqual : ∀ {reached}, Reaches source reached → (reached == reached) = true)
include selfEqual

theorem Tells.attempt {pass : Pass α} (steps : Steps pass) {state : Progress α × Bool}
    (tells : Tells source state.1) : Tells source (attempt state pass).1 := by
  rcases attempt_cases pass state with same | ⟨differs, changed⟩
  · rwa [same]
  · rw [changed]
    have onward := steps state.1.instructions
    have progress : (pass.run state.1.instructions).length < state.1.instructions.length := by
      apply onward.eq_or_length_lt.resolve_left
      intro same
      rw [same, selfEqual tells.reaches] at differs
      cases differs
    refine ⟨tells.reaches.trans onward, ?_, ?_⟩
    · intro none
      exact absurd none (Progress.record_applied_ne_nil _ _)
    · intro _
      exact progress.trans_le tells.reaches.length_le

theorem tells_run (level : ℕ) : Tells source ((ofLevel level).run source) := by
  apply sweepUpTo_invariant (Tells source)
  · intro pass listed state tells
    exact tells.attempt selfEqual (steps_of_mem_ofLevel listed)
  · exact ⟨.refl, fun _ => rfl, fun named => absurd rfl named⟩

end Pipeline

end Run

end Peephole

section Undefined

/-- No angle of the instruction is undefined. -/
def Instruction.IsDefined (instruction : Instruction Float) : Prop :=
  ∀ gate ∈ instruction.gate?, ∀ angle ∈ gate.angle?, angle.isNaN = false

theorem Gate.beq_self {gate : Gate Float} (defined : ∀ angle ∈ gate.angle?, angle.isNaN = false) :
    (gate == gate) = true := by
  have angle {number : Float} (listed : number ∈ gate.angle?) : (number == number) = true :=
    Double.beq_self_iff.2 (defined number listed)
  cases gate with
  | rx _ => exact angle rfl
  | ry _ => exact angle rfl
  | rz _ => exact angle rfl
  | p _ => exact angle rfl
  | cp _ => exact angle rfl
  | mcz controls => exact BEq.rfl (a := controls)
  | _ => rfl

theorem Instruction.beq_self {instruction : Instruction Float} (defined : instruction.IsDefined) :
    (instruction == instruction) = true := by
  rcases instruction with ⟨operation, qubits⟩
  have operation_beq : (operation == operation) = true := by
    cases operation with
    | apply gate => exact Gate.beq_self (defined gate rfl)
    | _ => rfl
  change (operation == operation && qubits == qubits) = true
  simp [operation_beq]

theorem beq_self_of_isDefined {instructions : List (Instruction Float)}
    (defined : ∀ instruction ∈ instructions, instruction.IsDefined) :
    (instructions == instructions) = true := by
  induction instructions with
  | nil => rfl
  | cons instruction rest ih =>
      rcases List.forall_mem_cons.1 defined with ⟨head, tail⟩
      simp [Instruction.beq_self head, ih tail]

/-- A rotation is kept only if its angle is a number. -/
theorem Product.isFinite_of_rotation {make : Float → Gate Float} {angle : Float}
    {gate : Gate Float} (kept : rotation make angle = .one gate) : angle.isFinite := by
  by_contra undefined
  have zero : Scalar.normalizeAngle angle = 0.0 := if_neg undefined
  have none : rotation make angle = .nothing := by
    rw [rotation, zero]
    exact if_pos (by decide)
  cases none.symm.trans kept

theorem Product.isNaN_of_ofGates? {first second gate : Gate Float}
    (found : ofGates? first second = some (.one gate)) :
    ∀ angle ∈ gate.angle?, angle.isNaN = false := by
  rcases ofGates?_cases found with ⟨turn, -, angle, angle', -, -, kept⟩ | ⟨-, -, cases⟩
  · have finite := isFinite_of_rotation kept.symm
    unfold rotation at kept
    split at kept
    · cases kept
    · cases kept
      simpa using Double.isNaN_of_isFinite finite
  · simp only [one.injEq, reduceCtorEq, and_false, or_false] at cases
    rcases cases with ⟨-, rfl⟩ | ⟨-, rfl⟩ | ⟨-, rfl⟩ | ⟨-, rfl⟩ <;> rintro angle ⟨⟩

namespace Peephole

theorem StepBy.isDefined {granted : Comparison Float → Prop}
    {source target : List (Instruction Float)} (step : StepBy granted source target)
    (defined : ∀ instruction ∈ source, instruction.IsDefined) :
    ∀ instruction ∈ target, instruction.IsDefined := by
  intro instruction listed
  rcases step.mem_cases listed with kept | ⟨gate, other, merged, -, -, -, -, product_eq, rfl⟩ |
    ⟨template, known, gate, used, -, -, -, -, rfl⟩
  · exact defined instruction kept
  · rintro _ ⟨⟩
    exact Product.isNaN_of_ofGates? product_eq
  · rintro _ ⟨⟩
    have free := (Template.free_of_mem_all known (by simp [used] : gate ∈ _)).1
    simp [free]

theorem ReachesBy.isDefined {granted : Comparison Float → Prop}
    {source target : List (Instruction Float)}
    (reaches : ReachesBy granted source target)
    (defined : ∀ instruction ∈ source, instruction.IsDefined) :
    ∀ instruction ∈ target, instruction.IsDefined := by
  induction reaches with
  | refl => exact defined
  | tail _ step ih => exact step.isDefined ih

end Peephole

end Undefined

/--
Each of the four passes leaves a list as it is or makes it shorter.  A report names no pass twice,
and if no angle is undefined it names none exactly if the list has stayed the same, which is so
exactly if it has not become shorter.
-/
theorem optimizeWithReport_passes (instructions : List (Instruction Float)) (level : ℕ) :
    let optimized := (optimizeWithReport instructions level).1
    let report := (optimizeWithReport instructions level).2
    (∀ pass ∈ [Peephole.cancelInverses, Peephole.mergeGates, Peephole.applyTemplatesUntilStable,
        Peephole.cancelThroughCommuting],
      pass instructions = instructions ∨ (pass instructions).length < instructions.length) ∧
    report.passes.Nodup ∧
    ((∀ instruction ∈ instructions, ∀ gate ∈ instruction.gate?, ∀ angle ∈ gate.angle?,
        angle.isNaN = false) →
      [report.passes = [], optimized = instructions, (optimized == instructions) = true,
        report.gatesRemoved = 0].TFAE) := by
  intro optimized report
  refine ⟨?_, Peephole.Pipeline.nodup_applied_run _ _, ?_⟩
  · simp only [List.forall_mem_cons, List.not_mem_nil, false_imp_iff, implies_true, and_true]
    exact ⟨(Peephole.cancelInverses_trace _).reaches.eq_or_length_lt,
      (Peephole.mergeGates_trace _).reaches.eq_or_length_lt,
      (Peephole.applyTemplatesUntilStable_trace _).reaches.eq_or_length_lt,
      (Peephole.cancelThroughCommuting_trace _).reaches.eq_or_length_lt⟩
  · intro defined
    have tells : Peephole.Pipeline.Tells instructions
        ((Peephole.Pipeline.ofLevel level).run instructions) := by
      apply Peephole.Pipeline.tells_run
      intro reached reaches
      exact beq_self_of_isDefined (reaches.isDefined defined)
    have removed : report.gatesRemoved = instructions.length - optimized.length := rfl
    tfae_have 1 → 2 := tells.unchanged
    tfae_have 2 → 3 := by
      intro same
      rw [same]
      exact beq_self_of_isDefined defined
    tfae_have 3 → 4 := by
      intro alike
      rw [removed, List.length_eq_of_beq alike, Nat.sub_self]
    tfae_have 4 → 1 := by
      intro none
      by_contra named
      have shorter : optimized.length < instructions.length := tells.shorter named
      omega
    tfae_finish

/-- Opposite infinite angles do not undo each other, but what they add up to is no rotation. -/
theorem optimizeWithReport_passes_infinite :
    let gates : List (Instruction Float) :=
      [.single (.rx (1.0 / 0.0)) 0, .single (.rx (-1.0 / 0.0)) 0]
    let report := (optimizeWithReport gates 1).2
    (∀ instruction ∈ gates, ∀ gate ∈ instruction.gate?, ∀ angle ∈ gate.angle?,
        angle.isNaN = false) ∧
      report.passes = ["MergeAdjacentGates"] ∧ report.gatesRemoved ≠ 0 := by
  intro gates report
  have defined : ∀ instruction ∈ gates, ∀ gate ∈ instruction.gate?, ∀ angle ∈ gate.angle?,
      angle.isNaN = false := by
    simp only [gates, List.forall_mem_cons, List.not_mem_nil, false_imp_iff, implies_true, and_true]
    refine ⟨?_, ?_⟩
    · rintro _ ⟨⟩ _ ⟨⟩
      decide
    · rintro _ ⟨⟩ _ ⟨⟩
      decide
  have named : report.passes = ["MergeAdjacentGates"] := by decide
  refine ⟨defined, named, ?_⟩
  intro none
  have unnamed := (((optimizeWithReport_passes gates 1).2.2 defined).out 3 0).1 none
  cases named.symm.trans unnamed

/-- With an undefined angle every pass is named, and nothing is removed. -/
example :
    (optimizeWithReport [.single (.rx (0.0 / 0.0 : Float)) 0] 1).2.passes =
        ["CancelInverses", "MergeAdjacentGates"] ∧
      (optimizeWithReport [.single (.rx (0.0 / 0.0 : Float)) 0] 1).2.gatesRemoved = 0 := by
  decide

end Anyonic
