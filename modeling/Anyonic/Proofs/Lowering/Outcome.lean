import Mathlib.Logic.Function.Iterate
import Anyonic.Proofs.Basic
import Anyonic.Proofs.Lowering.Rules
import Anyonic.Scalar.Double

/-!
# The outcome of lowering

Every pass brings all instructions that have a rule closer to elementary ones, so that as many
passes as the largest compositeness are enough.  What is left then is elementary, or it was stuck
from the start.  Passes treat every instruction on its own, and so does lowering.
-/

namespace Anyonic

variable {α : Type}

namespace Lowering

section Verdict

variable {instructions : List (Instruction α)}

theorem compositeness_le_maxCompositeness {instruction : Instruction α}
    (listed : instruction ∈ instructions) :
    instruction.compositeness ≤ maxCompositeness instructions :=
  (foldl_max_le_iff.1 le_rfl).2 _ (List.mem_map_of_mem listed)

/-- What lowering says when all passes have been made. -/
def verdict (instructions : List (Instruction α)) :
    Except (CompileError α) (List (Instruction α)) :=
  match instructions.find? fun instruction => !instruction.isElementary with
  | none => .ok instructions
  | some stuck => .error (.unsupportedGate stuck.name true)

theorem verdict_of_isElementary
    (elementary : ∀ instruction ∈ instructions, instruction.isElementary) :
    verdict instructions = .ok instructions := by
  have none : (instructions.find? fun instruction => !instruction.isElementary) = none := by
    simpa using elementary
  rw [verdict, none]

theorem eq_of_verdict_eq_ok {lowered : List (Instruction α)}
    (accepted : verdict instructions = .ok lowered) : lowered = instructions := by
  unfold verdict at accepted
  split at accepted
  · exact (Except.ok.inj accepted).symm
  · cases accepted

/-- The first instruction that is not elementary is the one that is named. -/
theorem verdict_of_first {before after : List (Instruction α)} {stuck : Instruction α}
    (elementary : ∀ instruction ∈ before, instruction.isElementary)
    (composite : stuck.isElementary = false) :
    verdict (before ++ stuck :: after) = .error (.unsupportedGate stuck.name true) := by
  have none : (before.find? fun instruction => !instruction.isElementary) = none := by
    simpa using elementary
  rw [verdict, List.find?_append, none, Option.none_or, List.find?_cons]
  simp [composite]

end Verdict

variable [Scalar α] {rules : LoweringRules}

/-- An instruction that becomes elementary in the given number of passes, if it has a rule. -/
structure Ready (rules : LoweringRules) (passes : ℕ) (instruction : Instruction α) : Prop where
  arity : instruction.validateArity = .ok ()
  notReset : instruction.isReset = false
  bounded : ∀ {expanded}, Rule rules instruction expanded → instruction.compositeness ≤ passes

section Passes

variable {instructions : List (Instruction α)} {instruction : Instruction α}

theorem compositeness_pos {expanded : List (Instruction α)}
    (rule : Rule rules instruction expanded) : 0 < instruction.compositeness := by
  cases rule <;> exact Nat.succ_pos _

theorem expandAll_append (first second : List (Instruction α)) :
    expandAll rules (first ++ second) = expandAll rules first ++ expandAll rules second :=
  List.flatMap_append

theorem mem_expandAll_iff :
    instruction ∈ expandAll rules instructions ↔
      (instruction ∈ instructions ∧ expand? rules instruction = none) ∨
        ∃ source ∈ instructions, ∃ expanded, expand? rules source = some expanded ∧
          instruction ∈ expanded := by
  rw [expandAll, List.mem_flatMap]
  constructor
  · rintro ⟨source, listed, present⟩
    cases found : expand? rules source with
    | none =>
        obtain rfl : instruction = source := by simpa [found] using present
        exact .inl ⟨listed, found⟩
    | some expanded => exact .inr ⟨source, listed, expanded, found, by simpa [found] using present⟩
  · rintro (⟨listed, found⟩ | ⟨source, listed, expanded, found, present⟩)
    · exact ⟨instruction, listed, by simp [found]⟩
    · exact ⟨source, listed, by simpa [found] using present⟩

theorem wellFormed_expandAll {width : ℕ}
    (wellFormed : ∀ instruction ∈ instructions, instruction.WellFormed width) :
    ∀ instruction ∈ expandAll rules instructions, instruction.WellFormed width := by
  intro instruction listed
  rcases mem_expandAll_iff.1 listed with ⟨listed, -⟩ | ⟨source, listed, expanded, found, present⟩
  · exact wellFormed instruction listed
  · have sourceWellFormed := wellFormed source listed
    exact ((Rule.of_expand? sourceWellFormed.arity found).parts instruction present).wellFormed
      sourceWellFormed

theorem wellFormed_iterate_expandAll {width : ℕ}
    (wellFormed : ∀ instruction ∈ instructions, instruction.WellFormed width) (passes : ℕ) :
    ∀ instruction ∈ (expandAll rules)^[passes] instructions, instruction.WellFormed width := by
  induction passes generalizing instructions with
  | zero => exact wellFormed
  | succ passes ih => exact ih (wellFormed_expandAll wellFormed)

theorem expandAll_eq_self
    (settled : ∀ instruction ∈ instructions, expand? rules instruction = none) :
    expandAll rules instructions = instructions := by
  induction instructions with
  | nil => rfl
  | cons instruction rest ih =>
      rcases List.forall_mem_cons.1 settled with ⟨head, tail⟩
      change (expand? rules instruction).getD [instruction] ++ expandAll rules rest = _
      rw [head, ih tail]
      rfl

theorem iterate_expandAll_eq_self
    (settled : ∀ instruction ∈ instructions, expand? rules instruction = none) (passes : ℕ) :
    (expandAll rules)^[passes] instructions = instructions :=
  Function.iterate_fixed (expandAll_eq_self settled) passes

namespace Ready

variable {passes : ℕ}

theorem of_arity (arity : instruction.validateArity = .ok ())
    (notReset : instruction.isReset = false) (bounded : instruction.compositeness ≤ passes) :
    Ready rules passes instruction :=
  ⟨arity, notReset, fun _ => bounded⟩

theorem expand?_eq_none (ready : Ready rules 0 instruction) : expand? rules instruction = none := by
  rw [Option.eq_none_iff_forall_ne_some]
  intro expanded found
  have rule := Rule.of_expand? ready.arity found
  have positive := compositeness_pos rule
  have bounded := ready.bounded rule
  omega

/-- One pass less is needed after a pass. -/
theorem expandAll (ready : ∀ instruction ∈ instructions, Ready rules (passes + 1) instruction) :
    ∀ instruction ∈ expandAll rules instructions, Ready rules passes instruction := by
  intro instruction listed
  obtain ⟨listed, settled⟩ | ⟨source, listed, expanded, found, present⟩ :=
    mem_expandAll_iff.1 listed
  · rcases ready instruction listed with ⟨arity, notReset, -⟩
    refine ⟨arity, notReset, fun rule => ?_⟩
    cases settled.symm.trans rule.expand?_eq
  · have rule := Rule.of_expand? (ready source listed).arity found
    have part := rule.parts instruction present
    have bounded := (ready source listed).bounded rule
    have simpler := part.simpler
    exact of_arity part.arity part.notReset (by omega)

theorem iterate_expandAll {instructions : List (Instruction α)}
    (ready : ∀ instruction ∈ instructions, Ready rules passes instruction) :
    ∀ instruction ∈ (Lowering.expandAll rules)^[passes] instructions,
      Ready rules 0 instruction := by
  induction passes generalizing instructions with
  | zero => exact ready
  | succ passes ih => exact ih (expandAll ready)

/-- What is left of a lowerable instruction when all passes have been made. -/
theorem isElementary (ready : Ready rules 0 instruction) (lowerable : Lowerable rules instruction) :
    instruction.isElementary := by
  by_contra composite
  obtain ⟨expanded, rule⟩ :=
    Rule.exists_of_composite ready.arity lowerable (Bool.not_eq_true _ ▸ composite)
  cases ready.expand?_eq_none.symm.trans rule.expand?_eq

end Ready

theorem Ready.maxCompositeness
    (arity : ∀ instruction ∈ instructions, instruction.validateArity = .ok ())
    (notReset : ∀ instruction ∈ instructions, instruction.isReset = false) :
    ∀ instruction ∈ instructions, Ready rules (maxCompositeness instructions) instruction := by
  intro instruction listed
  exact of_arity (arity instruction listed) (notReset instruction listed)
    (compositeness_le_maxCompositeness listed)

end Passes

section Settling

variable {instructions : List (Instruction α)}

theorem expand?_eq_none_of_not_canExpand (stuck : canExpand rules instructions = false) :
    ∀ instruction ∈ instructions, expand? rules instruction = none := by
  simpa [canExpand] using stuck

theorem expand?_eq_none_of_isElementary {instruction : Instruction α}
    (arity : instruction.validateArity = .ok ()) (elementary : instruction.isElementary) :
    expand? rules instruction = none := by
  rw [Option.eq_none_iff_forall_ne_some]
  intro expanded found
  have positive := compositeness_pos (Rule.of_expand? arity found)
  simp only [Instruction.isElementary, Bool.and_eq_true, beq_iff_eq] at elementary
  omega

/-- With enough passes allowed the verdict is on what all of them lead to. -/
theorem settle_eq_verdict {passes : ℕ}
    (ready : ∀ instruction ∈ instructions, Ready rules passes instruction) (made : ℕ) :
    settle rules passes made instructions = verdict ((expandAll rules)^[passes] instructions) := by
  -- passes that are left over when settling ends early would change nothing
  induction passes generalizing instructions made with
  | zero =>
      have stuck : canExpand rules instructions = false := by
        simpa [canExpand] using fun instruction listed => (ready instruction listed).expand?_eq_none
      rw [settle, Function.iterate_zero_apply, verdict]
      split <;> simp [*]
  | succ passes ih =>
      rw [settle]
      split
      · rename_i elementary
        have settled : ∀ instruction ∈ instructions, expand? rules instruction = none := by
          intro instruction listed
          apply expand?_eq_none_of_isElementary (ready instruction listed).arity
          simpa using List.find?_eq_none.1 elementary instruction listed
        rw [iterate_expandAll_eq_self settled, verdict, elementary]
      · rename_i stuck found
        split
        · rw [Function.iterate_succ_apply]
          exact ih (Ready.expandAll ready) (made + 1)
        · rename_i unable
          have settled := expand?_eq_none_of_not_canExpand (Bool.eq_false_iff.2 unable)
          rw [iterate_expandAll_eq_self settled, verdict, found]

end Settling

section Remainder

variable {instructions : List (Instruction α)}

theorem lowerable_iterate_expandAll {passes : ℕ}
    (ready : ∀ instruction ∈ instructions, Ready rules passes instruction)
    (lowerable : ∀ instruction ∈ instructions, Lowerable rules instruction) :
    ∀ instruction ∈ (expandAll rules)^[passes] instructions, Lowerable rules instruction := by
  induction passes generalizing instructions with
  | zero => exact lowerable
  | succ passes ih =>
      apply ih (Ready.expandAll ready)
      intro instruction listed
      obtain ⟨listed, -⟩ | ⟨source, listed, expanded, found, present⟩ :=
        mem_expandAll_iff.1 listed
      · exact lowerable instruction listed
      · have rule := Rule.of_expand? (ready source listed).arity found
        exact (rule.parts instruction present).lowerable rules

end Remainder

section Locality

variable {instructions : List (Instruction α)}

/-- What an instruction is lowered to. -/
def elementaryParts (rules : LoweringRules) (instruction : Instruction α) : List (Instruction α) :=
  (expandAll rules)^[instruction.compositeness] [instruction]

theorem elementaryParts_of_isElementary {instruction : Instruction α}
    (elementary : instruction.isElementary) :
    elementaryParts rules instruction = [instruction] := by
  simp only [Instruction.isElementary, Bool.and_eq_true, beq_iff_eq] at elementary
  rw [elementaryParts, elementary.1, Function.iterate_zero_apply]

/-- No rule applies to what is stuck, however many passes are made. -/
theorem elementaryParts_of_stuck {instruction : Instruction α} (stuck : Stuck rules instruction) :
    elementaryParts rules instruction = [instruction] := by
  have settled : expand? rules instruction = none := by
    rcases stuck with ⟨off, angle, isPhase⟩ | ⟨⟨controls, isSign⟩, none⟩
    · unfold expand?
      rw [isPhase]
      split <;> simp_all
    · simp [expand?, isSign, none]
  exact iterate_expandAll_eq_self (by simpa using settled) _

theorem iterate_expandAll_eq_flatMap (passes : ℕ) (instructions : List (Instruction α)) :
    (expandAll rules)^[passes] instructions =
      instructions.flatMap fun instruction => (expandAll rules)^[passes] [instruction] := by
  have split (first second : List (Instruction α)) :
      (expandAll rules)^[passes] (first ++ second) =
        (expandAll rules)^[passes] first ++ (expandAll rules)^[passes] second := by
    induction passes generalizing first second with
    | zero => rfl
    | succ passes ih => simp only [Function.iterate_succ_apply, expandAll_append, ih]
  induction instructions with
  | nil => exact iterate_expandAll_eq_self (by simp) passes
  | cons instruction rest ih =>
      rw [← List.singleton_append, split, ih]
      rfl

theorem iterate_expandAll_singleton {instruction : Instruction α} {passes : ℕ}
    (arity : instruction.validateArity = .ok ()) (notReset : instruction.isReset = false)
    (enough : instruction.compositeness ≤ passes) :
    (expandAll rules)^[passes] [instruction] = elementaryParts rules instruction := by
  have ready : ∀ other ∈ [instruction], Ready rules instruction.compositeness other := by
    simpa using Ready.of_arity arity notReset (Nat.le_refl _)
  rcases Nat.exists_eq_add_of_le' enough with ⟨further, rfl⟩
  rw [Function.iterate_add_apply]
  exact iterate_expandAll_eq_self
    (fun other listed => (Ready.iterate_expandAll ready other listed).expand?_eq_none) further

end Locality

end Lowering

section Lowering

theorem forM_validateArity_append {before : List (Instruction α)}
    (earlier : ∀ instruction ∈ before, instruction.validateArity = .ok ())
    (rest : List (Instruction α)) :
    ((before ++ rest).forM fun instruction => CompileError.ofCircuit instruction.validateArity) =
      (rest.forM fun instruction => CompileError.ofCircuit instruction.validateArity :
        Except (CompileError α) Unit) := by
  induction before with
  | nil => rfl
  | cons first before ih =>
      rcases List.forall_mem_cons.1 earlier with ⟨head, tail⟩
      rw [List.cons_append, List.forM, head, ← ih tail]
      rfl

variable [Scalar α] {rules : LoweringRules} {instructions : List (Instruction α)}

/-- The first instruction with a wrong number of operands decides. -/
theorem lower_of_arity_error {before after : List (Instruction α)} {instruction : Instruction α}
    {error : CircuitError} (earlier : ∀ other ∈ before, other.validateArity = .ok ())
    (wrong : instruction.validateArity = .error error) :
    lower rules (before ++ instruction :: after) = .error (.circuit error) := by
  rw [lower, forM_validateArity_append earlier, List.forM, wrong]
  rfl

/-- Either all instructions have the right number of operands, or lowering says which has not. -/
theorem arity_cases (rules : LoweringRules) (instructions : List (Instruction α)) :
    (∀ instruction ∈ instructions, instruction.validateArity = .ok ()) ∨
      ∃ error, lower rules instructions = .error (.circuit error) := by
  rcases forall_or_exists_first (·.validateArity = .ok ()) instructions with
    arity | ⟨before, instruction, after, rfl, earlier, fails⟩
  · exact .inl arity
  · cases checked : instruction.validateArity with
    | error error => exact .inr ⟨error, lower_of_arity_error earlier checked⟩
    | ok value => exact absurd checked fails

theorem lower_of_reset (arity : ∀ instruction ∈ instructions, instruction.validateArity = .ok ())
    (reset : ∃ instruction ∈ instructions, instruction.isReset) :
    lower rules instructions = .error .resetRejected := by
  have checked := forM_validateArity_append arity []
  rw [List.append_nil] at checked
  rw [lower, checked, if_pos (List.any_eq_true.2 reset)]
  rfl

theorem lower_eq_verdict
    (arity : ∀ instruction ∈ instructions, instruction.validateArity = .ok ())
    (notReset : ∀ instruction ∈ instructions, instruction.isReset = false) :
    lower rules instructions = Lowering.verdict
      ((Lowering.expandAll rules)^[Lowering.maxCompositeness instructions] instructions) := by
  have none : ¬instructions.any Instruction.isReset := by simpa using notReset
  have checked := forM_validateArity_append arity []
  rw [List.append_nil] at checked
  rw [lower, checked, if_neg none]
  exact Lowering.settle_eq_verdict (Lowering.Ready.maxCompositeness arity notReset) 0

theorem eq_iterate_of_lower_eq_ok {lowered : List (Instruction α)}
    (arity : ∀ instruction ∈ instructions, instruction.validateArity = .ok ())
    (accepted : lower rules instructions = .ok lowered) :
    lowered = (Lowering.expandAll rules)^[Lowering.maxCompositeness instructions] instructions := by
  have notReset : ∀ instruction ∈ instructions, instruction.isReset = false := by
    intro instruction listed
    by_contra reset
    cases accepted.symm.trans
      (lower_of_reset arity ⟨instruction, listed, by simpa using reset⟩)
  rw [lower_eq_verdict arity notReset] at accepted
  exact Lowering.eq_of_verdict_eq_ok accepted

/-- The verdict is on what every instruction is lowered to on its own. -/
theorem lower_eq_verdict_flatMap
    (arity : ∀ instruction ∈ instructions, instruction.validateArity = .ok ())
    (notReset : ∀ instruction ∈ instructions, instruction.isReset = false) :
    lower rules instructions =
      Lowering.verdict (instructions.flatMap (Lowering.elementaryParts rules)) := by
  rw [lower_eq_verdict arity notReset, Lowering.iterate_expandAll_eq_flatMap]
  congr 1
  apply List.flatMap_congr
  intro instruction listed
  exact Lowering.iterate_expandAll_singleton (arity instruction listed)
    (notReset instruction listed) (Lowering.compositeness_le_maxCompositeness listed)

theorem isElementary_elementaryParts {instruction : Instruction α}
    (arity : instruction.validateArity = .ok ())
    (lowerable : Lowering.Lowerable rules instruction) :
    ∀ part ∈ Lowering.elementaryParts rules instruction, part.isElementary := by
  intro part present
  have ready : ∀ other ∈ [instruction], Lowering.Ready rules instruction.compositeness other := by
    simpa using Lowering.Ready.of_arity arity lowerable.notReset le_rfl
  apply (Lowering.Ready.iterate_expandAll ready part present).isElementary
  exact Lowering.lowerable_iterate_expandAll ready (by simpa using lowerable) part present

theorem isElementary_of_mem_flatMap_elementaryParts
    (arity : ∀ instruction ∈ instructions, instruction.validateArity = .ok ())
    (lowerable : ∀ instruction ∈ instructions, Lowering.Lowerable rules instruction) :
    ∀ instruction ∈ instructions.flatMap (Lowering.elementaryParts rules),
      instruction.isElementary := by
  intro part listed
  rcases List.mem_flatMap.1 listed with ⟨instruction, listed, present⟩
  exact isElementary_elementaryParts (arity instruction listed) (lowerable instruction listed) part
    present

/-- All lists of lowerable instructions are lowered, every instruction on its own. -/
theorem lower_eq_flatMap (arity : ∀ instruction ∈ instructions, instruction.validateArity = .ok ())
    (lowerable : ∀ instruction ∈ instructions, Lowering.Lowerable rules instruction) :
    lower rules instructions = .ok (instructions.flatMap (Lowering.elementaryParts rules)) := by
  rw [lower_eq_verdict_flatMap arity fun instruction listed =>
    (lowerable instruction listed).notReset]
  exact Lowering.verdict_of_isElementary
    (isElementary_of_mem_flatMap_elementaryParts arity lowerable)

/-- The first instruction that is stuck is found when all else is elementary. -/
theorem lower_of_stuck {before after : List (Instruction α)} {stuck : Instruction α}
    (arity : ∀ instruction ∈ before ++ stuck :: after, instruction.validateArity = .ok ())
    (notReset : ∀ instruction ∈ before ++ stuck :: after, instruction.isReset = false)
    (lowerable : ∀ instruction ∈ before, Lowering.Lowerable rules instruction)
    (isStuck : Lowering.Stuck rules stuck) :
    lower rules (before ++ stuck :: after) = .error (.unsupportedGate stuck.name true) := by
  rw [lower_eq_verdict_flatMap arity notReset, List.flatMap_append, List.flatMap_cons,
    Lowering.elementaryParts_of_stuck isStuck]
  apply Lowering.verdict_of_first _ isStuck.isElementary_eq_false
  apply isElementary_of_mem_flatMap_elementaryParts _ lowerable
  intro instruction listed
  exact arity instruction (List.mem_append_left _ listed)

variable (rules) in
/-- Without resets a list is lowered, or one of its instructions is stuck. -/
theorem lower_cases (arity : ∀ instruction ∈ instructions, instruction.validateArity = .ok ())
    (notReset : ∀ instruction ∈ instructions, instruction.isReset = false) :
    (∀ instruction ∈ instructions, Lowering.Lowerable rules instruction) ∨
      ∃ stuck ∈ instructions,
        lower rules instructions = .error (.unsupportedGate stuck.name true) := by
  rcases forall_or_exists_first (Lowering.Lowerable rules) instructions with
    lowerable | ⟨before, stuck, after, rfl, lowerable, rejected⟩
  · exact .inl lowerable
  · rcases Lowering.not_lowerable_iff.1 rejected with reset | isStuck
    · cases reset.symm.trans (notReset stuck (by simp))
    · exact .inr ⟨stuck, by simp, lower_of_stuck arity notReset lowerable isStuck⟩

/-- A list with an instruction that is not lowerable is rejected. -/
theorem exists_lower_eq_error
    (arity : ∀ instruction ∈ instructions, instruction.validateArity = .ok ())
    {instruction : Instruction α} (listed : instruction ∈ instructions)
    (rejected : ¬Lowering.Lowerable rules instruction) :
    ∃ error, lower rules instructions = .error error := by
  by_cases reset : ∃ other ∈ instructions, other.isReset
  · exact ⟨_, lower_of_reset arity reset⟩
  · rcases lower_cases rules arity (by simpa using reset) with lowerable | ⟨stuck, -, failed⟩
    · exact absurd (lowerable instruction listed) rejected
    · exact ⟨_, failed⟩

/-- Elementary instructions are left as they are. -/
theorem lower_of_isElementary
    (arity : ∀ instruction ∈ instructions, instruction.validateArity = .ok ())
    (elementary : ∀ instruction ∈ instructions, instruction.isElementary) :
    lower rules instructions = .ok instructions := by
  have lowerable : ∀ instruction ∈ instructions, Lowering.Lowerable rules instruction := by
    intro instruction listed
    rcases Instruction.isElementary_iff.1 (elementary instruction listed) with ⟨notReset, simple⟩
    exact ⟨notReset, .inr fun angle isPhase => (simple _ isPhase).2.2.1 angle rfl,
      fun controls isSign => absurd rfl ((simple _ isSign).2.2.2.2 controls)⟩
  have parts_eq : instructions.flatMap (Lowering.elementaryParts rules) = instructions := by
    rw [List.flatMap_congr fun instruction listed =>
      Lowering.elementaryParts_of_isElementary (elementary instruction listed)]
    exact List.flatMap_singleton' instructions
  rw [lower_eq_flatMap arity lowerable, parts_eq]

theorem validateArity_of_lower_eq_ok {lowered : List (Instruction α)}
    (accepted : lower rules instructions = .ok lowered) :
    ∀ instruction ∈ instructions, instruction.validateArity = .ok () := by
  rcases arity_cases rules instructions with arity | ⟨error, failed⟩
  · exact arity
  · cases accepted.symm.trans failed

/-- Lowering asks something of every instruction and nothing of the list. -/
theorem lower_eq_ok_iff {lowered : List (Instruction α)} :
    lower rules instructions = .ok lowered ↔
      (∀ instruction ∈ instructions,
        instruction.validateArity = .ok () ∧ Lowering.Lowerable rules instruction) ∧
      lowered = instructions.flatMap (Lowering.elementaryParts rules) := by
  constructor
  · intro accepted
    have arity := validateArity_of_lower_eq_ok accepted
    have lowerable : ∀ instruction ∈ instructions, Lowering.Lowerable rules instruction := by
      intro instruction listed
      by_contra rejected
      rcases exists_lower_eq_error arity listed rejected with ⟨error, failed⟩
      cases accepted.symm.trans failed
    rw [lower_eq_flatMap arity lowerable] at accepted
    refine ⟨?_, (Except.ok.inj accepted).symm⟩
    intro instruction listed
    exact ⟨arity instruction listed, lowerable instruction listed⟩
  · rintro ⟨accepted, rfl⟩
    apply lower_eq_flatMap
    · intro instruction listed
      exact (accepted instruction listed).1
    · intro instruction listed
      exact (accepted instruction listed).2

/-- Lowering fails only on resets and on what is stuck, if the numbers of operands are right. -/
theorem settles_lower
    (arity : ∀ instruction ∈ instructions, instruction.validateArity = .ok ()) :
    Settles (lower rules instructions) fun _ => True := by
  by_cases reset : ∃ instruction ∈ instructions, instruction.isReset
  · rw [lower_of_reset arity reset]
    trivial
  · rcases lower_cases rules arity (by simpa using reset) with lowerable | ⟨stuck, -, failed⟩
    · rw [lower_eq_flatMap arity lowerable]
      trivial
    · rw [failed]
      trivial

theorem isElementary_of_lower_eq_ok {lowered : List (Instruction α)}
    (accepted : lower rules instructions = .ok lowered) :
    ∀ instruction ∈ lowered, instruction.isElementary := by
  rcases lower_eq_ok_iff.1 accepted with ⟨each, rfl⟩
  apply isElementary_of_mem_flatMap_elementaryParts
  · intro instruction listed
    exact (each instruction listed).1
  · intro instruction listed
    exact (each instruction listed).2

theorem wellFormed_of_lower_eq_ok {width : ℕ} {lowered : List (Instruction α)}
    (wellFormed : ∀ instruction ∈ instructions, instruction.WellFormed width)
    (accepted : lower rules instructions = .ok lowered) :
    ∀ instruction ∈ lowered, instruction.WellFormed width := by
  have arity := validateArity_of_lower_eq_ok accepted
  rw [eq_iterate_of_lower_eq_ok arity accepted]
  exact Lowering.wellFormed_iterate_expandAll wellFormed _

end Lowering

end Anyonic
