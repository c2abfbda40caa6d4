import Anyonic.Proofs.Peephole.Figures
import Anyonic.Scalar.Double

/-!
# Levels of optimisation

The passes of the preset pipelines are run one after another and none of their results is ever
turned down, so level one is one sweep of two passes, and level two begins with the same two passes
behind two others.  Both make a list at most shorter.  Level two is not level one with further work
behind it, though: what its first passes put in may leave the later ones less to do than there was
before.
-/

namespace Anyonic

variable {α : Type} [Scalar α]

namespace Peephole

theorem ReachesBy.eq_or_length_lt {granted : Comparison α → Prop}
    {source target : List (Instruction α)} (reaches : ReachesBy granted source target) :
    target = source ∨ target.length < source.length := by
  induction reaches with
  | refl => exact .inl rfl
  | tail _ step ih =>
      right
      have shorter := step.length_lt
      rcases ih with rfl | ih
      · exact shorter
      · omega

theorem cancelThroughCommuting_of_short {instructions : List (Instruction α)}
    (short : instructions.length < 2) : cancelThroughCommuting instructions = instructions := by
  match instructions, short with
  | [], _ => simp [cancelThroughCommuting]
  | [instruction], _ =>
      have alone : removePartner instruction [] [] = none := rfl
      rw [cancelThroughCommuting, alone]
      simp [cancelThroughCommuting]

namespace Pipeline

/-- A pass that only makes steps and is left out only where it would make none. -/
structure Regular (pass : Pass α) : Prop where
  steps : Steps pass
  idle : ∀ instructions, pass.applies instructions = false → pass.run instructions = instructions

/-- What a regular pass makes of a list is always taken over. -/
theorem attempt_instructions {pass : Pass α} (regular : Regular pass) (state : Progress α × Bool) :
    (attempt state pass).1.instructions = pass.run state.1.instructions := by
  rcases state with ⟨progress, changed⟩
  have outcome := (regular.steps progress.instructions).eq_or_length_lt
  simp only [attempt]
  split
  · split
    · rename_i longer
      rcases outcome with same | shorter
      · rw [same] at longer
        omega
      · omega
    · split
      · rfl
      · rename_i equal
        rcases outcome with same | shorter
        · exact same.symm
        · have alike : (pass.run progress.instructions == progress.instructions) = true := by
            simpa [bne] using equal
          have length_eq := List.length_eq_of_beq alike
          omega
  · rename_i skipped
    exact (regular.idle _ (Bool.eq_false_iff.2 skipped)).symm

theorem foldl_attempt_instructions {passes : List (Pass α)}
    (regular : ∀ pass ∈ passes, Regular pass) (state : Progress α × Bool) :
    (passes.foldl attempt state).1.instructions =
      passes.foldl (fun instructions pass => pass.run instructions) state.1.instructions := by
  induction passes generalizing state with
  | nil => rfl
  | cons pass passes ih =>
      rcases List.forall_mem_cons.1 regular with ⟨head, tail⟩
      rw [List.foldl_cons, List.foldl_cons, ih tail, attempt_instructions head]

theorem regular_of_mem_ofLevel {level : ℕ} {pass : Pass α}
    (listed : pass ∈ (ofLevel level).passes) : Regular pass := by
  refine ⟨steps_of_mem_ofLevel listed, ?_⟩
  intro instructions skipped
  unfold ofLevel at listed
  split at listed
  · cases listed
  · simp only [List.mem_cons, List.not_mem_nil, or_false] at listed
    rcases listed with rfl | rfl <;> cases skipped
  · simp only [List.mem_cons, List.not_mem_nil, or_false] at listed
    rcases listed with rfl | rfl | rfl | rfl
    · apply cancelThroughCommuting_of_short
      simpa [Pass.cancelThroughCommuting] using skipped
    · cases skipped
    · cases skipped
    · cases skipped

theorem sweep_instructions (level : ℕ) (progress : Progress α) :
    (sweep (ofLevel level).passes progress).1.instructions =
      (ofLevel level).passes.foldl (fun instructions pass => pass.run instructions)
        progress.instructions :=
  foldl_attempt_instructions (fun _ => regular_of_mem_ofLevel) (progress, false)

/-- The sweeps behind the first only make further steps. -/
theorem sweepUpTo_succ_reaches {passes : List (Pass α)} (steps : ∀ pass ∈ passes, Steps pass)
    (sweeps : ℕ) (progress : Progress α) :
    Reaches (sweep passes progress).1.instructions
      (sweepUpTo passes (sweeps + 1) progress).instructions := by
  rw [sweepUpTo]
  split
  · rename_i next swept
    rw [swept]
    exact sweepUpTo_reaches steps sweeps next
  · rename_i next swept
    rw [swept]

end Pipeline

end Peephole

section Levels

variable (instructions : List (Instruction α))

theorem optimize_zero : optimize instructions 0 = instructions := rfl

theorem optimize_one :
    optimize instructions 1 = Peephole.mergeGates (Peephole.cancelInverses instructions) := by
  have swept := Peephole.Pipeline.sweep_instructions 1 (⟨instructions, []⟩ : Peephole.Progress α)
  refine Eq.trans ?_ swept
  change (Peephole.Pipeline.sweepUpTo _ 1 _).instructions = _
  rw [Peephole.Pipeline.sweepUpTo]
  split
  · rename_i next swept
    rw [swept]
    rfl
  · rename_i next swept
    rw [swept]

/-- At the first level the comparisons are those of one round of cancelling and merging. -/
theorem comparisons_one :
    comparisons instructions 1 = Peephole.cancelComparisons [] instructions ++
      Peephole.mergeComparisons [] (Peephole.cancelInverses instructions) := by
  let start : Peephole.Progress α × Bool := ({ instructions }, false)
  have listed : (.cancelInverses : Peephole.Pass α) ∈ (Peephole.Pipeline.ofLevel 1).passes :=
    List.mem_cons_self
  have cancelled := Peephole.Pipeline.attempt_instructions
    (Peephole.Pipeline.regular_of_mem_ofLevel listed) start
  change Peephole.Pipeline.comparisonsUpTo (Peephole.WatchedPass.ofLevel 1) 1 start.1 = _
  rw [Peephole.Pipeline.comparisonsUpTo]
  -- there is no second sweep, whatever the first has changed
  rcases Peephole.Pipeline.sweep _ start.1 with ⟨next, moved⟩
  cases moved <;>
  · change Peephole.cancelComparisons [] instructions ++ (Peephole.mergeComparisons []
      (Peephole.Pipeline.attempt start .cancelInverses).1.instructions ++ []) ++ [] = _
    rw [cancelled, List.append_nil, List.append_nil]
    rfl

theorem length_optimize_le (level : ℕ) :
    (optimize instructions level).length ≤ instructions.length :=
  (optimize_reaches instructions level).length_le

/-- Level two does at least as well as level one on what its first two passes make of the list. -/
theorem length_optimize_two_le :
    (optimize instructions 2).length ≤
      (optimize (Peephole.applyTemplatesUntilStable
        (Peephole.cancelThroughCommuting instructions)) 1).length := by
  have swept := Peephole.Pipeline.sweep_instructions 2 (⟨instructions, []⟩ : Peephole.Progress α)
  have reaches : Peephole.Reaches _ (optimize instructions 2) :=
    Peephole.Pipeline.sweepUpTo_succ_reaches
      (fun _ => Peephole.Pipeline.steps_of_mem_ofLevel) 9 ⟨instructions, []⟩
  rw [swept] at reaches
  rw [optimize_one]
  exact reaches.length_le

end Levels

/-- Level one and level two never fall behind level zero, and level two does not fall behind level
one where neither the cancellation through commuting gates nor the templates change the list. -/
theorem length_optimize_levels (instructions : List (Instruction α)) :
    (optimize instructions 1).length ≤ (optimize instructions 0).length ∧
      (optimize instructions 2).length ≤ (optimize instructions 0).length ∧
      (Peephole.cancelThroughCommuting instructions = instructions →
        Peephole.applyTemplatesUntilStable instructions = instructions →
          (optimize instructions 2).length ≤ (optimize instructions 1).length) := by
  rw [optimize_zero]
  refine ⟨length_optimize_le instructions 1, length_optimize_le instructions 2, ?_⟩
  intro uncancelled unmatched
  have bounded := length_optimize_two_le instructions
  rw [uncancelled, unmatched] at bounded
  exact bounded

/-- Two pairs of T gates with a controlled not between them, which only merging can shorten. -/
theorem length_optimize_levels_pairs :
    let gates : List (Instruction Float) :=
      [.single .t 0, .single .t 0, .double .cx 0 1, .single .t 1, .single .t 1]
    Peephole.cancelThroughCommuting gates = gates ∧
      Peephole.applyTemplatesUntilStable gates = gates ∧
      (optimize gates 2).length ≤ (optimize gates 1).length := by
  intro gates
  have uncancelled : Peephole.cancelThroughCommuting gates = gates := by cbv
  have unmatched : Peephole.applyTemplatesUntilStable gates = gates := by cbv
  exact ⟨uncancelled, unmatched, (length_optimize_levels gates).2.2 uncancelled unmatched⟩

/-- Six T gates and an S gate make a full turn, which level one finds and level two does not: the
templates have turned the T gates into S and T gates by turns. -/
theorem optimize_six_t_s :
    let gates : List (Instruction Float) := List.replicate 6 (.single .t 0) ++ [.single .s 0]
    optimize gates 1 = [] ∧
      optimize gates 2 =
        [.single .s 0, .single .t 0, .single .s 0, .single .t 0, .single .s 0] := by
  intro gates
  constructor
  · rfl
  · cbv

end Anyonic
