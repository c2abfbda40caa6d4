import Mathlib.Logic.Function.Iterate
import Anyonic.Proofs.Peephole.Levels

/-!
# Sweeping to a fixed point

A sweep leaves a list as it is or makes it shorter, so that sweeping again and again comes to a list
that no pass changes.  A pipeline makes a limited number of sweeps, and what it returns is such a
list exactly if one of them, or the one that would come next, has nothing to do.  The limit matters:
each sweep can make room for one more step of the next one, to any depth.
-/

namespace Anyonic

variable {α : Type}

namespace Peephole

section Sweeps

variable [Scalar α]

namespace Pipeline

/-- What a sweep makes of a list if every pass is taken over. -/
def runAll (passes : List (Pass α)) (instructions : List (Instruction α)) :
    List (Instruction α) :=
  passes.foldl (fun instructions pass => pass.run instructions) instructions

section Unchanged

variable {pass : Pass α} {passes : List (Pass α)} {state : Progress α × Bool}

theorem attempt_eq_of_unchanged (unchanged : (attempt state pass).2 = false) :
    attempt state pass = state := by
  rcases attempt_cases pass state with same | ⟨-, changed⟩
  · exact same
  · rw [changed] at unchanged
    cases unchanged

theorem foldl_attempt_eq_of_unchanged (unchanged : (passes.foldl attempt state).2 = false) :
    passes.foldl attempt state = state := by
  induction passes generalizing state with
  | nil => rfl
  | cons pass passes ih =>
      have rest := ih unchanged
      rw [List.foldl_cons, rest] at unchanged
      rw [List.foldl_cons, rest, attempt_eq_of_unchanged unchanged]

end Unchanged

variable {passes : List (Pass α)} (regular : ∀ pass ∈ passes, Regular pass)
include regular

/-- Stopping at the first sweep that changes nothing makes no difference. -/
theorem sweepUpTo_instructions (sweeps : ℕ) (progress : Progress α) :
    (sweepUpTo passes sweeps progress).instructions =
      (runAll passes)^[sweeps] progress.instructions := by
  induction sweeps generalizing progress with
  | zero => rfl
  | succ sweeps ih =>
      have once : (sweep passes progress).1.instructions = runAll passes progress.instructions :=
        foldl_attempt_instructions regular (progress, false)
      rw [sweepUpTo, Function.iterate_succ_apply, ← once]
      split
      · rename_i next swept
        rw [ih, swept]
      · rename_i next swept
        have same : sweep passes progress = (progress, false) := by
          apply foldl_attempt_eq_of_unchanged
          exact congrArg Prod.snd swept
        have fixed : runAll passes progress.instructions = progress.instructions := by
          rw [← once, same]
        rw [swept] at same
        rw [swept, (Prod.mk.inj same).1, Function.iterate_fixed fixed]

theorem runAll_reaches (instructions : List (Instruction α)) :
    Reaches instructions (runAll passes instructions) := by
  have reaches := foldl_attempt_reaches (fun pass listed => (regular pass listed).steps)
    ((⟨instructions, []⟩, false) : Progress α × Bool)
  rwa [foldl_attempt_instructions regular] at reaches

theorem length_iterate_runAll_le (sweeps : ℕ) (instructions : List (Instruction α)) :
    ((runAll passes)^[sweeps] instructions).length ≤ instructions.length := by
  induction sweeps generalizing instructions with
  | zero => exact le_rfl
  | succ sweeps ih =>
      have once := (runAll_reaches regular instructions).length_le
      exact (ih _).trans once

/-- A sweep changes nothing exactly if none of its passes does. -/
theorem runAll_eq_self_iff {instructions : List (Instruction α)} :
    runAll passes instructions = instructions ↔
      ∀ pass ∈ passes, pass.run instructions = instructions := by
  induction passes with
  | nil => simp [runAll]
  | cons pass passes ih =>
      rcases List.forall_mem_cons.1 regular with ⟨head, tail⟩
      rw [List.forall_mem_cons]
      rcases (head.steps instructions).eq_or_length_lt with same | shorter
      · have rest : runAll (pass :: passes) instructions = runAll passes instructions :=
          congrArg (runAll passes) same
        simp only [rest, ih tail, same, true_and]
      · -- no later pass makes up for what the first one has removed
        have rest : (runAll (pass :: passes) instructions).length ≤
            (pass.run instructions).length :=
          (runAll_reaches tail _).length_le
        constructor
        · intro same
          rw [same] at rest
          omega
        · rintro ⟨same, -⟩
          rw [same] at shorter
          omega

theorem iterate_succ_runAll_eq_self_iff {sweeps : ℕ} {instructions : List (Instruction α)} :
    (runAll passes)^[sweeps + 1] instructions = instructions ↔
      runAll passes instructions = instructions := by
  constructor
  · intro same
    have rest := length_iterate_runAll_le regular sweeps (runAll passes instructions)
    rw [← Function.iterate_succ_apply, same] at rest
    rcases (runAll_reaches regular instructions).eq_or_length_lt with fixed | shorter
    · exact fixed
    · omega
  · intro fixed
    exact Function.iterate_fixed fixed _

/-- As long as the sweeps change something, each of them removes an instruction. -/
theorem length_iterate_runAll_add_le {sweeps : ℕ} {instructions : List (Instruction α)}
    (changing : ∀ earlier < sweeps,
      (runAll passes)^[earlier + 1] instructions ≠ (runAll passes)^[earlier] instructions) :
    ((runAll passes)^[sweeps] instructions).length + sweeps ≤ instructions.length := by
  induction sweeps with
  | zero => exact le_rfl
  | succ sweeps ih =>
      have before := ih fun earlier lt => changing earlier (by omega)
      have changed := changing sweeps (by omega)
      rw [Function.iterate_succ_apply'] at changed ⊢
      have shorter := (runAll_reaches regular _).eq_or_length_lt.resolve_left changed
      omega

end Pipeline

/-- One sweep of the most thorough pipeline. -/
def thoroughSweep (instructions : List (Instruction α)) : List (Instruction α) :=
  mergeGates (cancelInverses (applyTemplatesUntilStable (cancelThroughCommuting instructions)))

theorem thoroughSweep_eq :
    thoroughSweep (α := α) = Pipeline.runAll (Pipeline.ofLevel 2).passes :=
  rfl

theorem regular_thorough : ∀ pass ∈ (Pipeline.ofLevel 2 : Pipeline α).passes,
    Pipeline.Regular pass :=
  fun _ => Pipeline.regular_of_mem_ofLevel

theorem thoroughSweep_eq_self_iff {instructions : List (Instruction α)} :
    thoroughSweep instructions = instructions ↔
      cancelThroughCommuting instructions = instructions ∧
        applyTemplatesUntilStable instructions = instructions ∧
        cancelInverses instructions = instructions ∧ mergeGates instructions = instructions := by
  rw [thoroughSweep_eq, Pipeline.runAll_eq_self_iff regular_thorough]
  simp [Pipeline.ofLevel, Pass.cancelThroughCommuting, Pass.applyTemplates, Pass.cancelInverses,
    Pass.mergeGates]

end Sweeps

section Layers

open Instruction (single)

/-- The first half of each of a number of layers, latest gate first. -/
def halvesBefore : ℕ → List (Instruction α)
  | 0 => []
  | depth + 1 => single .h 0 :: single .s 0 :: halvesBefore depth

/-- The second half of each of a number of layers. -/
def halvesBehind : ℕ → List (Instruction α)
  | 0 => []
  | depth + 1 => single .h 0 :: single .x 0 :: single .s 0 :: halvesBehind depth

/--
Instructions within layers, each of which begins with S and H and ends with H, X and S.  Around a Z
gate a layer comes down to a Z gate, and around anything else there is nothing to do in it.
-/
def layered (depth : ℕ) (middle : List (Instruction α)) : List (Instruction α) :=
  (halvesBefore depth).reverse ++ (middle ++ halvesBehind depth)

theorem layered_succ (depth : ℕ) (middle : List (Instruction α)) :
    layered (depth + 1) middle =
      layered depth (single .s 0 :: single .h 0 :: middle ++
        [single .h 0, single .x 0, single .s 0]) := by
  simp [layered, halvesBefore, halvesBehind]

@[simp]
theorem length_layered (depth : ℕ) (middle : List (Instruction α)) :
    (layered depth middle).length = middle.length + 5 * depth := by
  induction depth generalizing middle with
  | zero => simp [layered, halvesBefore, halvesBehind]
  | succ depth ih =>
      rw [layered_succ, ih]
      simp only [List.length_append, List.length_cons, List.length_nil]
      omega

section Walk

/-- A walk over a list that rewrites the given instructions where they stand between S gates. -/
def Carries (walk : List (Instruction α) → List (Instruction α))
    (source target : List (Instruction α)) : Prop :=
  ∀ rest, walk (single .s 0 :: (source ++ single .s 0 :: rest)) =
    single .s 0 :: (target ++ walk (single .s 0 :: rest))

/-- A walk over a list that goes on over the two halves of a layer. -/
structure PassesLayers (walk : List (Instruction α) → List (Instruction α)) : Prop where
  before : Carries walk [single .h 0] [single .h 0]
  behind : Carries walk [single .h 0, single .x 0] [single .h 0, single .x 0]
  last : walk [single .s 0] = [single .s 0]

variable {walk : List (Instruction α) → List (Instruction α)}

theorem PassesLayers.reverse_halvesBefore (passes : PassesLayers walk) (depth : ℕ)
    (rest : List (Instruction α)) :
    walk ((halvesBefore depth).reverse ++ single .s 0 :: rest) =
      (halvesBefore depth).reverse ++ walk (single .s 0 :: rest) := by
  induction depth generalizing rest with
  | zero => rfl
  | succ depth ih =>
      have inner := passes.before rest
      simp only [List.singleton_append] at inner
      simp [halvesBefore, ih, inner]

theorem PassesLayers.cons_halvesBehind (passes : PassesLayers walk) (depth : ℕ) :
    walk (single .s 0 :: halvesBehind depth) = single .s 0 :: halvesBehind depth := by
  induction depth with
  | zero => exact passes.last
  | succ depth ih => exact (passes.behind _).trans (by rw [ih]; rfl)

/-- Such a walk does within layers what it does between S gates. -/
theorem Carries.layered {source target : List (Instruction α)}
    (carries : Carries walk source target) (passes : PassesLayers walk) (depth : ℕ) :
    walk (layered depth (single .s 0 :: source ++ [single .s 0])) =
      layered depth (single .s 0 :: target ++ [single .s 0]) := by
  have inner := carries (halvesBehind depth)
  rw [passes.cons_halvesBehind] at inner
  simp [Peephole.layered, passes.reverse_halvesBefore, inner]

end Walk

section Stack

/-- A stack on which the gates of layers are put one after another. -/
structure StacksLayers (push : List (Instruction α) → Instruction α → List (Instruction α)) :
    Prop where
  first : push [] (single .s 0) = [single .s 0]
  sOnH : ∀ stack, push (single .h 0 :: stack) (single .s 0) = single .s 0 :: single .h 0 :: stack
  hOnS : ∀ stack, push (single .s 0 :: stack) (single .h 0) = single .h 0 :: single .s 0 :: stack
  xOnH : ∀ stack, push (single .h 0 :: stack) (single .x 0) = single .x 0 :: single .h 0 :: stack
  sOnX : ∀ stack, push (single .x 0 :: stack) (single .s 0) = single .s 0 :: single .x 0 :: stack

namespace StacksLayers

variable {push : List (Instruction α) → Instruction α → List (Instruction α)}

theorem push_halvesBefore (keeps : StacksLayers push) (depth : ℕ) :
    push (halvesBefore depth) (single .s 0) = single .s 0 :: halvesBefore depth := by
  cases depth with
  | zero => exact keeps.first
  | succ depth => exact keeps.sOnH _

theorem foldl_halvesBefore (keeps : StacksLayers push) (depth : ℕ) :
    (halvesBefore depth).reverse.foldl push [] = halvesBefore depth := by
  induction depth with
  | zero => rfl
  | succ depth ih => simp [halvesBefore, ih, keeps.push_halvesBefore, keeps.hOnS]

theorem foldl_halvesBehind (keeps : StacksLayers push) {stack : List (Instruction α)}
    (onTop : push stack (single .h 0) = single .h 0 :: stack) (depth : ℕ) :
    (halvesBehind depth).foldl push stack = (halvesBehind depth).reverse ++ stack := by
  induction depth generalizing stack with
  | zero => rfl
  | succ depth ih => simp [halvesBehind, onTop, keeps.xOnH, keeps.sOnX, ih (keeps.hOnS _)]

/-- What the stack does within layers depends only on what it does on top of the first halves. -/
theorem reverse_foldl_layered (keeps : StacksLayers push) {depth : ℕ}
    {source target : List (Instruction α)}
    (pushed : source.foldl push (halvesBefore depth) = target.reverse ++ halvesBefore depth)
    (onTop : push (target.reverse ++ halvesBefore depth) (single .h 0) =
      single .h 0 :: (target.reverse ++ halvesBefore depth)) :
    ((layered depth source).foldl push []).reverse = layered depth target := by
  rw [layered, List.foldl_append, List.foldl_append, keeps.foldl_halvesBefore, pushed,
    keeps.foldl_halvesBehind onTop]
  simp [layered]

end StacksLayers

end Stack

variable [Scalar α] {instruction : Instruction α} {rest : List (Instruction α)}

theorem cancelThroughCommuting_cons (alone : removePartner instruction [] rest = none) :
    cancelThroughCommuting (instruction :: rest) = instruction :: cancelThroughCommuting rest := by
  rw [cancelThroughCommuting, alone]

theorem applyTemplates_cons (unmatched : matchTemplate? instruction rest = none) :
    applyTemplates (instruction :: rest) = instruction :: applyTemplates rest := by
  rw [applyTemplates, unmatched]

theorem applyTemplates_of_match {replacement remaining : List (Instruction α)}
    (found : matchTemplate? instruction rest = some (replacement, remaining)) :
    applyTemplates (instruction :: rest) = replacement ++ applyTemplates remaining := by
  rw [applyTemplates, found]

theorem passesLayers_cancelThroughCommuting :
    PassesLayers (cancelThroughCommuting (α := α)) where
  before rest := by
    simp only [List.cons_append, List.nil_append]
    rw [cancelThroughCommuting_cons rfl, cancelThroughCommuting_cons rfl]
  behind rest := by
    simp only [List.cons_append, List.nil_append]
    rw [cancelThroughCommuting_cons rfl, cancelThroughCommuting_cons rfl,
      cancelThroughCommuting_cons rfl]
  last := cancelThroughCommuting_of_short (by simp)

theorem passesLayers_applyTemplates : PassesLayers (applyTemplates (α := α)) where
  before rest := by
    simp only [List.cons_append, List.nil_append]
    rw [applyTemplates_cons rfl, applyTemplates_cons rfl]
  behind rest := by
    simp only [List.cons_append, List.nil_append]
    rw [applyTemplates_cons rfl, applyTemplates_cons rfl, applyTemplates_cons rfl]
  last := by rw [applyTemplates_cons rfl, applyTemplates]

theorem stacksLayers_pushUnlessUndone : StacksLayers (pushUnlessUndone (α := α)) :=
  ⟨rfl, fun _ => rfl, fun _ => rfl, fun _ => rfl, fun _ => rfl⟩

theorem stacksLayers_pushMerged : StacksLayers (pushMerged (α := α)) :=
  ⟨rfl, fun _ => rfl, fun _ => rfl, fun _ => rfl, fun _ => rfl⟩

section Sweep

variable (depth : ℕ)

theorem cancelThroughCommuting_layered :
    cancelThroughCommuting (layered (depth + 1) [single .z 0] : List (Instruction α)) =
      layered (depth + 1) [single .z 0] := by
  have carries : Carries (cancelThroughCommuting (α := α))
      [single .h 0, single .z 0, single .h 0, single .x 0]
      [single .h 0, single .z 0, single .h 0, single .x 0] := by
    intro rest
    simp only [List.cons_append, List.nil_append]
    rw [cancelThroughCommuting_cons rfl, cancelThroughCommuting_cons rfl,
      cancelThroughCommuting_cons rfl, cancelThroughCommuting_cons rfl,
      cancelThroughCommuting_cons rfl]
  rw [layered_succ]
  exact carries.layered passesLayers_cancelThroughCommuting depth

theorem applyTemplatesUntilStable_layered :
    applyTemplatesUntilStable (layered (depth + 1) [single .z 0] : List (Instruction α)) =
      layered depth [single .s 0, single .x 0, single .x 0, single .s 0] := by
  have matched : Carries (applyTemplates (α := α))
      [single .h 0, single .z 0, single .h 0, single .x 0] [single .x 0, single .x 0] := by
    intro rest
    simp only [List.cons_append, List.nil_append]
    rw [applyTemplates_cons rfl, applyTemplates_of_match rfl, applyTemplates_cons rfl]
    rfl
  have unmatched : Carries (applyTemplates (α := α))
      [single .x 0, single .x 0] [single .x 0, single .x 0] := by
    intro rest
    simp only [List.cons_append, List.nil_append]
    rw [applyTemplates_cons rfl, applyTemplates_cons rfl, applyTemplates_cons rfl]
  have once : applyTemplates (layered (depth + 1) [single .z 0] : List (Instruction α)) =
      layered depth [single .s 0, single .x 0, single .x 0, single .s 0] := by
    rw [layered_succ]
    exact matched.layered passesLayers_applyTemplates depth
  have twice : applyTemplates (layered depth [single .s 0, single .x 0, single .x 0, single .s 0] :
      List (Instruction α)) = _ :=
    unmatched.layered passesLayers_applyTemplates depth
  have shorter : (layered depth [single .s 0, single .x 0, single .x 0, single .s 0] :
      List (Instruction α)).length <
        (layered (depth + 1) [single .z 0] : List (Instruction α)).length := by
    simp only [length_layered, List.length_cons, List.length_nil]
    omega
  rw [applyTemplatesUntilStable, once, if_pos shorter, applyTemplatesUntilStable, twice]
  exact if_neg (lt_irrefl _)

theorem cancelInverses_layered :
    cancelInverses (layered depth [single .s 0, single .x 0, single .x 0, single .s 0] :
        List (Instruction α)) =
      layered depth [single .s 0, single .s 0] := by
  have keeps := stacksLayers_pushUnlessUndone (α := α)
  refine keeps.reverse_foldl_layered ?_ (keeps.hOnS _)
  rw [List.foldl_cons, keeps.push_halvesBefore]
  rfl

theorem mergeGates_layered :
    mergeGates (layered depth [single .s 0, single .s 0] : List (Instruction α)) =
      layered depth [single .z 0] := by
  have keeps := stacksLayers_pushMerged (α := α)
  refine keeps.reverse_foldl_layered ?_ rfl
  rw [List.foldl_cons, keeps.push_halvesBefore]
  cases depth <;> rfl

/-- A sweep takes away one layer. -/
theorem thoroughSweep_layered :
    thoroughSweep (layered (depth + 1) [single .z 0] : List (Instruction α)) =
      layered depth [single .z 0] := by
  rw [thoroughSweep, cancelThroughCommuting_layered, applyTemplatesUntilStable_layered,
    cancelInverses_layered, mergeGates_layered]

theorem thoroughSweep_layered_ne :
    thoroughSweep (layered (depth + 1) [single .z 0] : List (Instruction α)) ≠
      layered (depth + 1) [single .z 0] := by
  rw [thoroughSweep_layered]
  intro same
  have length_eq := congrArg List.length same
  simp only [length_layered] at length_eq
  omega

theorem iterate_thoroughSweep_layered (sweeps : ℕ) :
    thoroughSweep^[sweeps] (layered (sweeps + depth) [single .z 0] : List (Instruction α)) =
      layered depth [single .z 0] := by
  induction sweeps with
  | zero => rw [Nat.zero_add, Function.iterate_zero_apply]
  | succ sweeps ih =>
      rw [Nat.succ_add, Function.iterate_succ_apply, thoroughSweep_layered, ih]

end Sweep

end Layers

end Peephole

open Peephole

variable [Scalar α]

theorem optimize_two (instructions : List (Instruction α)) :
    optimize instructions 2 = thoroughSweep^[Pipeline.thoroughSweeps] instructions :=
  Pipeline.sweepUpTo_instructions regular_thorough _ _

theorem optimize_two_eq_self_iff {instructions : List (Instruction α)} :
    optimize instructions 2 = instructions ↔ thoroughSweep instructions = instructions := by
  rw [optimize_two]
  exact Pipeline.iterate_succ_runAll_eq_self_iff regular_thorough

/--
Level two comes to a fixed point, that is, to a list that none of its passes changes, exactly if one
of its sweeps, or the one that would come next, changes nothing.  This is so whenever fewer
instructions have been removed than there are sweeps.
-/
theorem optimize_two_fixed_iff (instructions : List (Instruction α)) :
    let optimized := optimize instructions 2
    (optimize optimized 2 = optimized ↔
      cancelThroughCommuting optimized = optimized ∧
        applyTemplatesUntilStable optimized = optimized ∧
        cancelInverses optimized = optimized ∧ mergeGates optimized = optimized) ∧
    (optimize optimized 2 = optimized ↔
      ∃ sweeps ≤ Pipeline.thoroughSweeps,
        thoroughSweep^[sweeps + 1] instructions = thoroughSweep^[sweeps] instructions) ∧
    (instructions.length < optimized.length + Pipeline.thoroughSweeps →
      optimize optimized 2 = optimized) := by
  intro optimized
  have optimized_eq : optimized = thoroughSweep^[Pipeline.thoroughSweeps] instructions :=
    optimize_two instructions
  have settled : optimize optimized 2 = optimized ↔
      ∃ sweeps ≤ Pipeline.thoroughSweeps,
        thoroughSweep^[sweeps + 1] instructions = thoroughSweep^[sweeps] instructions := by
    rw [optimize_two_eq_self_iff]
    constructor
    · intro fixed
      refine ⟨Pipeline.thoroughSweeps, le_rfl, ?_⟩
      rwa [Function.iterate_succ_apply', ← optimized_eq]
    · rintro ⟨sweeps, allowed, fixed⟩
      rw [Function.iterate_succ_apply'] at fixed
      have reached : optimized = thoroughSweep^[sweeps] instructions := by
        rw [optimized_eq, ← Nat.sub_add_cancel allowed, Function.iterate_add_apply,
          Function.iterate_fixed fixed]
      rw [reached, fixed]
  refine ⟨optimize_two_eq_self_iff.trans thoroughSweep_eq_self_iff, settled, ?_⟩
  intro few
  by_contra changes
  have changing : ∀ sweeps < Pipeline.thoroughSweeps,
      thoroughSweep^[sweeps + 1] instructions ≠ thoroughSweep^[sweeps] instructions := by
    intro sweeps lt same
    exact changes (settled.2 ⟨sweeps, lt.le, same⟩)
  have removed := Pipeline.length_iterate_runAll_add_le regular_thorough changing
  rw [← thoroughSweep_eq, ← optimized_eq] at removed
  omega

/-- A single layer is too short for the number of sweeps to matter. -/
theorem optimize_two_fixed_iff_one_layer :
    let gates : List (Instruction Float) := layered 1 [.single .z 0]
    gates.length < (optimize gates 2).length + Pipeline.thoroughSweeps ∧
      optimize (optimize gates 2) 2 = optimize gates 2 := by
  intro gates
  have few : gates.length < (optimize gates 2).length + Pipeline.thoroughSweeps :=
    Nat.lt_add_left _ (by decide : 6 < 10)
  exact ⟨few, (optimize_two_fixed_iff gates).2.2 few⟩

/-- Eleven layers, in which no gate has an angle, are one too many for ten sweeps. -/
theorem optimize_two_eleven_layers :
    let gates : List (Instruction Float) := layered 11 [.single .z 0]
    (gates.all fun instruction => instruction.gate?.all (·.angle?.isNone)) ∧
      optimize gates 2 = [.single .s 0, .single .h 0, .single .z 0, .single .h 0, .single .x 0,
        .single .s 0] ∧
      optimize (optimize gates 2) 2 ≠ optimize gates 2 := by
  intro gates
  have optimized_eq : optimize gates 2 = layered 1 [.single .z 0] := by
    rw [optimize_two]
    exact iterate_thoroughSweep_layered 1 10
  refine ⟨rfl, optimized_eq, ?_⟩
  rw [optimized_eq, Ne, optimize_two_eq_self_iff]
  exact thoroughSweep_layered_ne 0

/-- No number of sweeps is enough for all lists. -/
theorem exists_thoroughSweep_ne (sweeps : ℕ) :
    ∃ instructions : List (Instruction α),
      thoroughSweep^[sweeps + 1] instructions ≠ thoroughSweep^[sweeps] instructions := by
  refine ⟨layered (sweeps + 1) [.single .z 0], ?_⟩
  rw [Function.iterate_succ_apply', iterate_thoroughSweep_layered]
  exact thoroughSweep_layered_ne 0

end Anyonic
