import Anyonic.Proofs.Peephole.Step

/-!
# The comparisons of a run

Which comparisons of angles the optimiser makes on a list, pass by pass and sweep by sweep, in the
order in which it makes them.  A run only makes steps that rely on these comparisons, and each of
them is made between two instructions of a list that the run has come to.  Whether instructions
commute does not depend on their angles, so that comparisons made for that are not among them, and
templates have no angles to compare.
-/

namespace Anyonic

variable {α : Type} [Scalar α]

namespace Peephole

/-- The comparisons on the way from one list to another, each of which is made on that way. -/
structure Trace (source : List (Instruction α)) (comparisons : List (Comparison α))
    (target : List (Instruction α)) : Prop where
  reaches : ReachesBy (· ∈ comparisons) source target
  made : ∀ comparison ∈ comparisons, ∃ reached, Reaches source reached ∧
    comparison.OccursIn reached

namespace Trace

variable {source middle target : List (Instruction α)} {comparison : Comparison α}
  {comparisons further : List (Comparison α)}

theorem refl (source : List (Instruction α)) : Trace source [] source :=
  ⟨.refl, by simp⟩

/-- A comparison that leads to nothing. -/
theorem compare (occurs : comparison.OccursIn source) : Trace source [comparison] source where
  reaches := .refl
  made := by
    intro own listed
    rw [List.mem_singleton.1 listed]
    exact ⟨source, .refl, occurs⟩

/-- A comparison that leads to a step. -/
theorem rewrite (occurs : comparison.OccursIn source)
    (step : StepBy (· = comparison) source target) : Trace source [comparison] target where
  reaches := .single (step.mono fun _ => List.mem_singleton.2)
  made := (compare occurs).made

/-- A step without a comparison. -/
theorem silent (step : StepBy (fun _ => False) source target) : Trace source [] target :=
  ⟨.single (step.mono fun _ => False.elim), by simp⟩

theorem trans (first : Trace source comparisons middle) (second : Trace middle further target) :
    Trace source (comparisons ++ further) target where
  reaches :=
    (first.reaches.mono fun _ => List.mem_append_left further).trans
      (second.reaches.mono fun _ => List.mem_append_right comparisons)
  made := by
    intro own listed
    rcases List.mem_append.1 listed with listed | listed
    · exact first.made own listed
    · rcases second.made own listed with ⟨reached, onward, occurs⟩
      exact ⟨reached, first.reaches.reaches.trans onward, occurs⟩

/-- What has been found is not taken over. -/
theorem discard (trace : Trace source comparisons target) : Trace source comparisons source :=
  ⟨.refl, trace.made⟩

theorem behind (trace : Trace source comparisons target) (front : List (Instruction α)) :
    Trace (front ++ source) comparisons (front ++ target) where
  reaches := trace.reaches.behind front
  made := by
    intro own listed
    rcases trace.made own listed with ⟨reached, onward, occurs⟩
    exact ⟨front ++ reached, onward.behind front,
      occurs.trans (List.sublist_append_right front reached)⟩

end Trace

section InverseCancellation

/-- The comparison made when an instruction is put on the stack of kept ones. -/
def pushComparisons : List (Instruction α) → Instruction α → List (Comparison α)
  | [], _ => []
  | top :: _, instruction =>
      if instruction.isIdentity then [] else [⟨.undoes, top, instruction⟩]

/-- The comparisons made when the rest of a list is put on the stack. -/
def cancelComparisons : (stack rest : List (Instruction α)) → List (Comparison α)
  | _, [] => []
  | stack, instruction :: rest =>
      pushComparisons stack instruction ++
        cancelComparisons (pushUnlessUndone stack instruction) rest

theorem pushUnlessUndone_trace (stack rest : List (Instruction α)) (instruction : Instruction α) :
    Trace (stack.reverse ++ instruction :: rest) (pushComparisons stack instruction)
      ((pushUnlessUndone stack instruction).reverse ++ rest) := by
  cases stack with
  | nil =>
      rw [pushUnlessUndone, pushComparisons]
      split
      · rename_i identity
        exact .silent (.drop identity)
      · exact .refl _
  | cons top kept =>
      have occurs : Comparison.OccursIn ⟨.undoes, top, instruction⟩
          ((top :: kept).reverse ++ instruction :: rest) := by
        simp [Comparison.OccursIn]
      rw [pushUnlessUndone, pushComparisons]
      split
      · rename_i identity
        exact .silent (.drop identity)
      · split
        · rename_i undone
          have step : StepBy (· = ⟨.undoes, top, instruction⟩)
              (kept.reverse ++ top :: ([] ++ instruction :: rest)) (kept.reverse ++ ([] ++ rest)) :=
            .cancel undone (by simp) rfl
          exact .rewrite occurs (by simpa using step)
        · simpa using Trace.compare occurs

theorem foldl_pushUnlessUndone_trace (stack rest : List (Instruction α)) :
    Trace (stack.reverse ++ rest) (cancelComparisons stack rest)
      (rest.foldl pushUnlessUndone stack).reverse := by
  induction rest generalizing stack with
  | nil => simpa [cancelComparisons] using Trace.refl stack.reverse
  | cons instruction rest ih => exact (pushUnlessUndone_trace stack rest instruction).trans (ih _)

theorem cancelInverses_trace (instructions : List (Instruction α)) :
    Trace instructions (cancelComparisons [] instructions) (cancelInverses instructions) :=
  foldl_pushUnlessUndone_trace [] instructions

end InverseCancellation

section GateMerging

/-- The comparisons made when an instruction is merged into the stack of kept ones. -/
def pushMergedComparisons : List (Instruction α) → Instruction α → List (Comparison α)
  | [], _ => []
  | top :: kept, instruction =>
      ⟨.fullTurn, top, instruction⟩ ::
        match Product.ofInstructions? top instruction with
        | some (.one gate) => pushMergedComparisons kept (.onQubits gate instruction.qubits)
        | _ => []

/-- The comparisons made when the rest of a list is merged into the stack. -/
def mergeComparisons : (stack rest : List (Instruction α)) → List (Comparison α)
  | _, [] => []
  | stack, instruction :: rest =>
      pushMergedComparisons stack instruction ++
        mergeComparisons (pushMerged stack instruction) rest

theorem pushMerged_trace (stack rest : List (Instruction α)) (instruction : Instruction α) :
    Trace (stack.reverse ++ instruction :: rest) (pushMergedComparisons stack instruction)
      ((pushMerged stack instruction).reverse ++ rest) := by
  induction stack generalizing instruction with
  | nil => exact .refl _
  | cons top kept ih =>
      have occurs : Comparison.OccursIn ⟨.fullTurn, top, instruction⟩
          ((top :: kept).reverse ++ instruction :: rest) := by
        simp [Comparison.OccursIn]
      have merged (product : Product α)
          (found : Product.ofInstructions? top instruction = some product) :
          Trace ((top :: kept).reverse ++ instruction :: rest) [⟨.fullTurn, top, instruction⟩]
            (kept.reverse ++ (product.instructions instruction.qubits ++ rest)) := by
        have step : StepBy (· = ⟨.fullTurn, top, instruction⟩)
            (kept.reverse ++ top :: instruction :: rest) _ := .merge found rfl
        exact .rewrite occurs (by simpa using step)
      rw [pushMerged, pushMergedComparisons]
      match found : Product.ofInstructions? top instruction with
      | some .nothing => exact merged .nothing found
      | some (.one gate) => exact (merged (.one gate) found).trans (ih _)
      | none => simpa using Trace.compare occurs

theorem foldl_pushMerged_trace (stack rest : List (Instruction α)) :
    Trace (stack.reverse ++ rest) (mergeComparisons stack rest)
      (rest.foldl pushMerged stack).reverse := by
  induction rest generalizing stack with
  | nil => simpa [mergeComparisons] using Trace.refl stack.reverse
  | cons instruction rest ih => exact (pushMerged_trace stack rest instruction).trans (ih _)

theorem mergeGates_trace (instructions : List (Instruction α)) :
    Trace instructions (mergeComparisons [] instructions) (mergeGates instructions) :=
  foldl_pushMerged_trace [] instructions

end GateMerging

section Commutation

/-- The comparisons made when a partner of an instruction is looked for. -/
def partnerComparisons (instruction : Instruction α) :
    (passed rest : List (Instruction α)) → List (Comparison α)
  | _, [] => []
  | passed, next :: rest =>
      ⟨.undoes, instruction, next⟩ ::
        if instruction.undoneBy next &&
            passed.all fun between => between.commutes instruction && between.commutes next then []
        else if instruction.commutes next then
          partnerComparisons instruction (next :: passed) rest
        else []

/-- The comparisons made when inverses are cancelled through commuting instructions. -/
def commutingComparisons : List (Instruction α) → List (Comparison α)
  | [] => []
  | instruction :: rest =>
      partnerComparisons instruction [] rest ++
        match _ : removePartner instruction [] rest with
        | some remaining => commutingComparisons remaining
        | none => commutingComparisons rest
termination_by instructions => instructions.length
decreasing_by
  · have := length_of_removePartner ‹_›
    simp only [List.length_cons, List.length_nil] at this ⊢
    omega
  · simp

/-- The search for a partner leads to the list without the two, if it finds one. -/
theorem removePartner_trace (instruction : Instruction α) (passed rest : List (Instruction α)) :
    Trace (instruction :: (passed.reverse ++ rest)) (partnerComparisons instruction passed rest)
      ((removePartner instruction passed rest).getD
        (instruction :: (passed.reverse ++ rest))) := by
  induction rest generalizing passed with
  | nil => exact .refl _
  | cons next rest ih =>
      have occurs : Comparison.OccursIn ⟨.undoes, instruction, next⟩
          (instruction :: (passed.reverse ++ next :: rest)) := by
        simp [Comparison.OccursIn]
      rw [removePartner, partnerComparisons]
      split
      · rename_i found
        simp only [Bool.and_eq_true, List.all_eq_true] at found
        have step : StepBy (· = ⟨.undoes, instruction, next⟩)
            ([] ++ instruction :: (passed.reverse ++ next :: rest))
            ([] ++ (passed.reverse ++ rest)) :=
          .cancel found.1 (by simpa using found.2) rfl
        exact .rewrite occurs step
      · split
        · have further := ih (next :: passed)
          simp only [List.reverse_cons, List.append_assoc, List.singleton_append] at further
          exact (Trace.compare occurs).trans further
        · exact .compare occurs

theorem cancelThroughCommuting_trace (instructions : List (Instruction α)) :
    Trace instructions (commutingComparisons instructions)
      (cancelThroughCommuting instructions) := by
  induction instructions using cancelThroughCommuting.induct with
  | case1 => simpa [cancelThroughCommuting, commutingComparisons] using Trace.refl []
  | case2 instruction rest remaining removed ih =>
      have searched := removePartner_trace instruction [] rest
      rw [removed] at searched
      rw [cancelThroughCommuting, commutingComparisons, removed]
      exact searched.trans ih
  | case3 instruction rest kept ih =>
      have searched := removePartner_trace instruction [] rest
      rw [kept] at searched
      rw [cancelThroughCommuting, commutingComparisons, kept]
      exact searched.trans (ih.behind [instruction])

end Commutation

section Templates

theorem applyTemplates_trace (instructions : List (Instruction α)) :
    Trace instructions [] (applyTemplates instructions) := by
  induction instructions using applyTemplates.induct with
  | case1 => simpa [applyTemplates] using Trace.refl []
  | case2 instruction rest replacement remaining found ih =>
      have step : StepBy (fun _ => False) ([] ++ instruction :: rest)
          ([] ++ (replacement ++ remaining)) := .template found
      rw [applyTemplates, found]
      exact (Trace.silent step).trans (ih.behind replacement)
  | case3 instruction rest kept ih =>
      rw [applyTemplates, kept]
      exact ih.behind [instruction]

theorem applyTemplatesUntilStable_trace (instructions : List (Instruction α)) :
    Trace instructions [] (applyTemplatesUntilStable instructions) := by
  induction instructions using applyTemplatesUntilStable.induct with
  | case1 instructions next shorter ih =>
      rw [applyTemplatesUntilStable, if_pos shorter]
      exact (applyTemplates_trace instructions).trans ih
  | case2 instructions next stable =>
      rw [applyTemplatesUntilStable, if_neg stable]
      exact applyTemplates_trace instructions

end Templates

/-- A pass, with the comparisons that it makes on a list. -/
structure WatchedPass (α : Type) [Scalar α] extends Pass α where
  comparisons : List (Instruction α) → List (Comparison α)
  trace : ∀ instructions, Trace instructions (comparisons instructions) (run instructions)

namespace WatchedPass

/-- The passes of a level, watched. -/
def ofLevel : (level : ℕ) → List (WatchedPass α)
  | 0 => []
  | 1 =>
      [⟨.cancelInverses, cancelComparisons [], cancelInverses_trace⟩,
        ⟨.mergeGates, mergeComparisons [], mergeGates_trace⟩]
  | _ =>
      [⟨.cancelThroughCommuting, commutingComparisons, cancelThroughCommuting_trace⟩,
        ⟨.applyTemplates, fun _ => [], applyTemplatesUntilStable_trace⟩,
        ⟨.cancelInverses, cancelComparisons [], cancelInverses_trace⟩,
        ⟨.mergeGates, mergeComparisons [], mergeGates_trace⟩]

theorem map_ofLevel (level : ℕ) :
    (ofLevel level).map WatchedPass.toPass = (Pipeline.ofLevel (α := α) level).passes := by
  match level with
  | 0 | 1 | _ + 2 => rfl

end WatchedPass

namespace Pipeline

/-- The comparisons made when a pass is attempted. -/
def attemptComparisons (state : Progress α × Bool) (pass : WatchedPass α) : List (Comparison α) :=
  if pass.applies state.1.instructions then pass.comparisons state.1.instructions else []

/-- The comparisons of a sweep. -/
def sweepComparisons : List (WatchedPass α) → Progress α × Bool → List (Comparison α)
  | [], _ => []
  | pass :: passes, state =>
      attemptComparisons state pass ++ sweepComparisons passes (attempt state pass.toPass)

/-- The comparisons of at most the given number of sweeps. -/
def comparisonsUpTo (passes : List (WatchedPass α)) : (sweeps : ℕ) → Progress α →
    List (Comparison α)
  | 0, _ => []
  | sweeps + 1, progress =>
      sweepComparisons passes (progress, false) ++
        match sweep (passes.map WatchedPass.toPass) progress with
        | (next, true) => comparisonsUpTo passes sweeps next
        | (_, false) => []

theorem attempt_trace (state : Progress α × Bool) (pass : WatchedPass α) :
    Trace state.1.instructions (attemptComparisons state pass)
      (attempt state pass.toPass).1.instructions := by
  have trace := pass.trace state.1.instructions
  rw [attemptComparisons]
  simp only [attempt]
  split
  · split
    · exact trace.discard
    · split
      · exact trace
      · exact trace.discard
  · exact .refl _

theorem foldl_attempt_trace (passes : List (WatchedPass α)) (state : Progress α × Bool) :
    Trace state.1.instructions (sweepComparisons passes state)
      ((passes.map WatchedPass.toPass).foldl attempt state).1.instructions := by
  induction passes generalizing state with
  | nil => exact .refl _
  | cons pass passes ih => exact (attempt_trace state pass).trans (ih _)

theorem sweepUpTo_trace (passes : List (WatchedPass α)) (sweeps : ℕ) (progress : Progress α) :
    Trace progress.instructions (comparisonsUpTo passes sweeps progress)
      (sweepUpTo (passes.map WatchedPass.toPass) sweeps progress).instructions := by
  induction sweeps generalizing progress with
  | zero => exact .refl _
  | succ sweeps ih =>
      have once : Trace progress.instructions _
          (sweep (passes.map WatchedPass.toPass) progress).1.instructions :=
        foldl_attempt_trace passes (progress, false)
      rw [sweepUpTo, comparisonsUpTo]
      rcases swept : sweep (passes.map WatchedPass.toPass) progress with ⟨next, moved⟩
      rw [swept] at once
      cases moved with
      | true => exact once.trans (ih next)
      | false => simpa using once

section Runs

/-- A pass that only makes steps. -/
def Steps (pass : Pass α) : Prop :=
  ∀ instructions, Reaches instructions (pass.run instructions)

/-- Either a pass leaves everything as it is, or its result counts as different and is taken. -/
theorem attempt_cases (pass : Pass α) (state : Progress α × Bool) :
    attempt state pass = state ∨
      (pass.run state.1.instructions == state.1.instructions) = false ∧
        attempt state pass = (state.1.record pass.name (pass.run state.1.instructions), true) := by
  rcases state with ⟨progress, changed⟩
  simp only [attempt]
  split
  · split
    · exact .inl rfl
    · split
      · rename_i differs
        exact .inr ⟨by simpa [bne] using differs, rfl⟩
      · exact .inl rfl
  · exact .inl rfl

theorem attempt_reaches {pass : Pass α} (steps : Steps pass) (state : Progress α × Bool) :
    Reaches state.1.instructions (attempt state pass).1.instructions := by
  rcases attempt_cases pass state with same | ⟨-, changed⟩
  · rw [same]
  · rw [changed]
    exact steps state.1.instructions

theorem foldl_attempt_invariant (holds : Progress α → Prop) {passes : List (Pass α)}
    (kept : ∀ pass ∈ passes, ∀ state, holds state.1 → holds (attempt state pass).1)
    {state : Progress α × Bool} (start : holds state.1) :
    holds (passes.foldl attempt state).1 := by
  induction passes generalizing state with
  | nil => exact start
  | cons pass passes ih =>
      rcases List.forall_mem_cons.1 kept with ⟨head, tail⟩
      apply ih tail
      exact head state start

/-- What every pass keeps, a whole run keeps. -/
theorem sweepUpTo_invariant (holds : Progress α → Prop) {passes : List (Pass α)}
    (kept : ∀ pass ∈ passes, ∀ state, holds state.1 → holds (attempt state pass).1) (sweeps : ℕ)
    {progress : Progress α} (start : holds progress) :
    holds (sweepUpTo passes sweeps progress) := by
  induction sweeps generalizing progress with
  | zero => exact start
  | succ sweeps ih =>
      have once : holds (sweep passes progress).1 := foldl_attempt_invariant holds kept start
      rw [sweepUpTo]
      split
      · rename_i next swept
        rw [swept] at once
        exact ih once
      · rename_i next swept
        rw [swept] at once
        exact once

theorem foldl_attempt_reaches {passes : List (Pass α)} (steps : ∀ pass ∈ passes, Steps pass)
    (state : Progress α × Bool) :
    Reaches state.1.instructions (passes.foldl attempt state).1.instructions := by
  apply foldl_attempt_invariant fun progress => Reaches state.1.instructions progress.instructions
  · intro pass listed reached before
    exact before.trans (attempt_reaches (steps pass listed) reached)
  · exact .refl

theorem sweepUpTo_reaches {passes : List (Pass α)} (steps : ∀ pass ∈ passes, Steps pass)
    (sweeps : ℕ) (progress : Progress α) :
    Reaches progress.instructions (sweepUpTo passes sweeps progress).instructions := by
  apply sweepUpTo_invariant fun reached => Reaches progress.instructions reached.instructions
  · intro pass listed reached before
    exact before.trans (attempt_reaches (steps pass listed) reached)
  · exact .refl

/-- All passes of the preset pipelines only make steps. -/
theorem steps_of_mem_ofLevel {level : ℕ} {pass : Pass α} (listed : pass ∈ (ofLevel level).passes) :
    Steps pass := by
  rw [← WatchedPass.map_ofLevel] at listed
  rcases List.mem_map.1 listed with ⟨watched, -, rfl⟩
  intro instructions
  exact (watched.trace instructions).reaches.reaches

end Runs

end Pipeline

end Peephole

/-- The comparisons that the optimiser makes on a list at a level. -/
def comparisons (instructions : List (Instruction α)) (level : ℕ) :
    List (Peephole.Comparison α) :=
  Peephole.Pipeline.comparisonsUpTo (Peephole.WatchedPass.ofLevel level)
    (Peephole.Pipeline.ofLevel (α := α) level).sweeps { instructions }

theorem optimize_trace (instructions : List (Instruction α)) (level : ℕ) :
    Peephole.Trace instructions (comparisons instructions level) (optimize instructions level) := by
  have trace := Peephole.Pipeline.sweepUpTo_trace (Peephole.WatchedPass.ofLevel level)
    (Peephole.Pipeline.ofLevel (α := α) level).sweeps { instructions }
  rwa [Peephole.WatchedPass.map_ofLevel] at trace

/-- Optimisation at any level is a sequence of rewriting steps. -/
theorem optimize_reaches (instructions : List (Instruction α)) (level : ℕ) :
    Peephole.Reaches instructions (optimize instructions level) :=
  (optimize_trace instructions level).reaches.reaches

end Anyonic
