import Mathlib.Data.List.Chain
import Anyonic.Proofs.Peephole.FixedPoint

/-!
# Normal forms of the single passes

What is left to do for a pass can be told from the list alone: an identity or neighbours that undo
each other, neighbours that have a product, a template at the front of a run of gates on a wire.  A
pass changes nothing exactly if there is nothing of the kind, and what it returns is always such a
list.  For the two passes with a stack this is so because the stack is a normal form all the time,
also after gates have been taken from it; for templates because every replacement makes the list
shorter, so that a list of the same length is the same list.
-/

namespace Anyonic

variable {α : Type}

namespace Peephole

section Stack

/-- Instructions that all go on top of the stack are those that the stack holds in the end. -/
theorem foldl_eq_reverse_append
    {push : List (Instruction α) → Instruction α → List (Instruction α)}
    {fits : Instruction α → Instruction α → Prop} {stack instructions : List (Instruction α)}
    (onTop : ∀ instruction ∈ instructions, ∀ stack : List (Instruction α),
      (∀ top ∈ stack.head?, fits top instruction) → push stack instruction = instruction :: stack)
    (start : ∀ top ∈ stack.head?, ∀ first ∈ instructions.head?, fits top first)
    (chain : instructions.IsChain fits) :
    instructions.foldl push stack = instructions.reverse ++ stack := by
  induction instructions generalizing stack with
  | nil => rfl
  | cons instruction rest ih =>
      rcases List.forall_mem_cons.1 onTop with ⟨headOnTop, tailOnTop⟩
      rcases List.isChain_cons.1 chain with ⟨next, chain⟩
      have pushed : push stack instruction = instruction :: stack := by
        apply headOnTop
        intro top isTop
        exact start top isTop instruction rfl
      rw [List.foldl_cons, pushed, ih tailOnTop (by simpa using next) chain]
      simp

end Stack

section InverseCancellation

variable [Scalar α]

/-- A list without identities in which no neighbours undo each other. -/
structure IsCancelled (instructions : List (Instruction α)) : Prop where
  noIdentity : ∀ instruction ∈ instructions, instruction.isIdentity = false
  noInverse : instructions.IsChain fun first second => first.undoneBy second = false

theorem isCancelled_reverse_iff {stack : List (Instruction α)} :
    IsCancelled stack.reverse ↔ (∀ instruction ∈ stack, instruction.isIdentity = false) ∧
      stack.IsChain fun upper lower => lower.undoneBy upper = false := by
  constructor
  · rintro ⟨noIdentity, noInverse⟩
    exact ⟨by simpa using noIdentity, List.isChain_reverse.1 noInverse⟩
  · rintro ⟨noIdentity, noInverse⟩
    exact ⟨by simpa using noIdentity, List.isChain_reverse.2 noInverse⟩

theorem isCancelled_pushUnlessUndone {stack : List (Instruction α)}
    (cancelled : IsCancelled stack.reverse) (instruction : Instruction α) :
    IsCancelled (pushUnlessUndone stack instruction).reverse := by
  rw [isCancelled_reverse_iff] at cancelled ⊢
  rcases cancelled with ⟨noIdentity, noInverse⟩
  cases stack with
  | nil =>
      rw [pushUnlessUndone]
      split
      · exact ⟨noIdentity, noInverse⟩
      · simp_all
  | cons top kept =>
      rw [pushUnlessUndone]
      split
      · exact ⟨noIdentity, noInverse⟩
      · rename_i notIdentity
        split
        · exact ⟨(List.forall_mem_cons.1 noIdentity).2, noInverse.tail⟩
        · rename_i notUndone
          refine ⟨List.forall_mem_cons.2 ⟨by simpa using notIdentity, noIdentity⟩, ?_⟩
          exact .cons_cons (by simpa using notUndone) noInverse

theorem isCancelled_cancelInverses (instructions : List (Instruction α)) :
    IsCancelled (cancelInverses instructions) := by
  apply List.foldlRecOn instructions pushUnlessUndone
    (motive := fun stack => IsCancelled stack.reverse)
  · exact ⟨by simp, .nil⟩
  · intro stack cancelled instruction _
    exact isCancelled_pushUnlessUndone cancelled instruction

theorem cancelInverses_eq_self_iff {instructions : List (Instruction α)} :
    cancelInverses instructions = instructions ↔ IsCancelled instructions := by
  constructor
  · intro same
    rw [← same]
    exact isCancelled_cancelInverses instructions
  · rintro ⟨noIdentity, noInverse⟩
    have pushed : instructions.foldl pushUnlessUndone [] = instructions.reverse ++ [] := by
      apply foldl_eq_reverse_append _ (by simp) noInverse
      intro instruction listed stack notUndone
      cases stack <;> simp_all [pushUnlessUndone]
    simp [cancelInverses, pushed]

end InverseCancellation

section GateMerging

variable [Scalar α]

/-- A list in which no neighbouring single-qubit gates on the same operands have a product. -/
def IsMerged (instructions : List (Instruction α)) : Prop :=
  instructions.IsChain fun first second => first.qubits = second.qubits →
    ∀ gate ∈ first.singleQubitGate?, ∀ other ∈ second.singleQubitGate?,
      Product.ofGates? gate other = none

theorem ofInstructions?_eq_none_iff {first second : Instruction α} :
    Product.ofInstructions? first second = none ↔ (first.qubits = second.qubits →
      ∀ gate ∈ first.singleQubitGate?, ∀ other ∈ second.singleQubitGate?,
        Product.ofGates? gate other = none) := by
  unfold Product.ofInstructions?
  split
  · rename_i operands
    cases first.singleQubitGate? <;> cases second.singleQubitGate? <;> simp_all
  · simp_all

theorem isMerged_reverse_iff {stack : List (Instruction α)} :
    IsMerged stack.reverse ↔
      stack.IsChain fun upper lower => Product.ofInstructions? lower upper = none := by
  simp only [IsMerged, ← ofInstructions?_eq_none_iff]
  exact List.isChain_reverse

/-- A product goes through the same check on the next gate, until nothing more can be merged. -/
theorem isMerged_pushMerged {stack : List (Instruction α)} (merged : IsMerged stack.reverse)
    (instruction : Instruction α) : IsMerged (pushMerged stack instruction).reverse := by
  rw [isMerged_reverse_iff] at merged ⊢
  induction stack generalizing instruction with
  | nil => exact .singleton instruction
  | cons top kept ih =>
      rw [pushMerged]
      split
      · exact merged.tail
      · exact ih merged.tail _
      · rename_i separate
        exact .cons_cons separate merged

theorem isMerged_mergeGates (instructions : List (Instruction α)) :
    IsMerged (mergeGates instructions) := by
  apply List.foldlRecOn instructions pushMerged (motive := fun stack => IsMerged stack.reverse)
  · exact .nil
  · intro stack merged instruction _
    exact isMerged_pushMerged merged instruction

theorem mergeGates_eq_self_iff {instructions : List (Instruction α)} :
    mergeGates instructions = instructions ↔ IsMerged instructions := by
  constructor
  · intro same
    rw [← same]
    exact isMerged_mergeGates instructions
  · intro merged
    simp only [IsMerged, ← ofInstructions?_eq_none_iff] at merged
    have pushed : instructions.foldl pushMerged [] = instructions.reverse ++ [] := by
      apply foldl_eq_reverse_append _ (by simp) merged
      intro instruction _ stack separate
      cases stack <;> simp_all [pushMerged]
    simp [mergeGates, pushed]

end GateMerging

section Templates

/-- The gates at the front of a wire, up to the first other instruction that touches it. -/
def gatesOnWire (wire : ℕ) (instructions : List (Instruction α)) : List (Gate α) :=
  ((instructions.filter (·.touches wire)).takeWhile (·.wire? == some wire)).filterMap
    Instruction.singleQubitGate?

section Wire

variable {wire : ℕ} {instruction : Instruction α}

theorem gatesOnWire_of_not_touches (untouched : ¬instruction.touches wire)
    (rest : List (Instruction α)) :
    gatesOnWire wire (instruction :: rest) = gatesOnWire wire rest := by
  simp [gatesOnWire, untouched]

theorem gatesOnWire_of_touches (touched : instruction.touches wire)
    (notWire : instruction.wire? ≠ some wire) (rest : List (Instruction α)) :
    gatesOnWire wire (instruction :: rest) = [] := by
  simp [gatesOnWire, touched, notWire]

theorem gatesOnWire_of_wire? (isWire : instruction.wire? = some wire) {gate : Gate α}
    (isGate : instruction.singleQubitGate? = some gate) (rest : List (Instruction α)) :
    gatesOnWire wire (instruction :: rest) = gate :: gatesOnWire wire rest := by
  rcases Instruction.exists_of_wire? isWire with ⟨-, -, -, head⟩
  have touched : instruction.touches wire := by
    simp [Instruction.touches, List.mem_of_mem_head? head]
  simp [gatesOnWire, touched, isWire, isGate]

end Wire

/-- A list in which no run of gates on a wire, wherever it begins, begins with a template. -/
def IsTemplateFree (instructions : List (Instruction α)) : Prop :=
  ∀ instruction rest, instruction :: rest <:+ instructions → ∀ wire ∈ instruction.wire?,
    ∀ template ∈ Template.all,
      ¬template.head :: template.tail <+: gatesOnWire wire (instruction :: rest)

variable [Scalar α]

theorem isGate_iff_of_free {instruction : Instruction α} {gate own : Gate α}
    (isGate : instruction.singleQubitGate? = some own) (free : gate.angle? = none) :
    instruction.isGate gate ↔ gate = own := by
  rcases Instruction.exists_of_singleQubitGate? isGate with ⟨instruction_eq, -⟩
  have own_eq : instruction.isGate gate = own.approxEq gate := by
    rw [instruction_eq]
    rfl
  rw [own_eq]
  constructor
  · intro same
    rcases Gate.approxEq_cases same with ⟨rfl, -⟩ | ⟨turn, -, angle, -, rfl, -⟩
    · rfl
    · simp at free
  · rintro rfl
    cases gate with
    | mcz controls => exact BEq.rfl (a := controls)
    | _ => first | rfl | cases free

/-- Gates without angles can be taken from a wire exactly if its run begins with them. -/
theorem isSome_takeFromWire_iff {wire : ℕ} {gates : List (Gate α)}
    (free : ∀ gate ∈ gates, gate.angle? = none) {rest : List (Instruction α)} :
    (takeFromWire wire gates rest).isSome ↔ gates <+: gatesOnWire wire rest := by
  induction rest generalizing gates with
  | nil => cases gates <;> simp [takeFromWire, gatesOnWire]
  | cons next rest ih =>
      cases gates with
      | nil => simp [takeFromWire]
      | cons gate gates =>
          rcases List.forall_mem_cons.1 free with ⟨headFree, tailFree⟩
          rw [takeFromWire]
          by_cases touched : next.touches wire
          · rw [if_pos touched]
            by_cases isWire : next.wire? = some wire
            · rcases Option.bind_eq_some_iff.1 isWire with ⟨own, isOwn, -⟩
              rw [gatesOnWire_of_wire? isWire isOwn, List.cons_prefix_cons, ← ih tailFree,
                ← isGate_iff_of_free isOwn headFree]
              split <;> simp_all
            · simp [gatesOnWire_of_touches touched isWire, isWire]
          · rw [if_neg touched, gatesOnWire_of_not_touches touched, Option.isSome_map]
            exact ih free

theorem matchTemplate?_eq_none_iff {instruction : Instruction α} {rest : List (Instruction α)} :
    matchTemplate? instruction rest = none ↔ ∀ wire ∈ instruction.wire?,
      ∀ template ∈ Template.all,
        ¬template.head :: template.tail <+: gatesOnWire wire (instruction :: rest) := by
  simp only [matchTemplate?, Option.bind_eq_none_iff, List.findSome?_eq_none_iff]
  apply forall₂_congr
  intro wire isWire
  apply forall₂_congr
  intro template listed
  rcases Option.bind_eq_some_iff.1 isWire with ⟨own, isOwn, -⟩
  have headFree := (Template.free_of_mem_all listed (by simp : template.head ∈ _)).1
  have tailFree : ∀ gate ∈ template.tail, gate.angle? = none := by
    intro gate used
    exact (Template.free_of_mem_all listed (by simp [used])).1
  rw [gatesOnWire_of_wire? isWire isOwn, List.cons_prefix_cons, ← isSome_takeFromWire_iff tailFree,
    ← isGate_iff_of_free isOwn headFree]
  split <;> simp_all

theorem isTemplateFree_cons_iff {instruction : Instruction α} {rest : List (Instruction α)} :
    IsTemplateFree (instruction :: rest) ↔
      matchTemplate? instruction rest = none ∧ IsTemplateFree rest := by
  rw [matchTemplate?_eq_none_iff]
  simp only [IsTemplateFree, List.suffix_cons_iff, or_imp, forall_and, List.cons.injEq, and_imp,
    forall_eq_apply_imp_iff, forall_eq]

/-- A template that is found is replaced by something shorter, so that the list changes. -/
theorem applyTemplates_eq_self_iff {instructions : List (Instruction α)} :
    applyTemplates instructions = instructions ↔ IsTemplateFree instructions := by
  induction instructions with
  | nil => simp [applyTemplates, IsTemplateFree]
  | cons instruction rest ih =>
      rw [isTemplateFree_cons_iff, ← ih]
      cases found : matchTemplate? instruction rest with
      | none => simp [applyTemplates_cons found]
      | some replaced =>
          rcases replaced with ⟨replacement, remaining⟩
          have step : Step ([] ++ instruction :: rest) ([] ++ (replacement ++ remaining)) :=
            .template found
          have shorter := step.length_lt
          have further : (applyTemplates remaining).length ≤ remaining.length :=
            (applyTemplates_trace remaining).reaches.length_le
          simp only [reduceCtorEq, false_and, iff_false]
          intro same
          have length_eq := congrArg List.length same
          simp only [applyTemplates_of_match found, List.length_append, List.nil_append,
            List.length_cons] at length_eq shorter
          omega

theorem applyTemplates_applyTemplatesUntilStable (instructions : List (Instruction α)) :
    applyTemplates (applyTemplatesUntilStable instructions) =
      applyTemplatesUntilStable instructions := by
  induction instructions using applyTemplatesUntilStable.induct with
  | case1 instructions next shorter ih =>
      rw [applyTemplatesUntilStable, if_pos shorter]
      exact ih
  | case2 instructions next stable =>
      -- the length has stayed the same, and so has the list
      have same : applyTemplates instructions = instructions :=
        (applyTemplates_trace instructions).reaches.eq_or_length_lt.resolve_right stable
      rw [applyTemplatesUntilStable, if_neg stable, same, same]

theorem applyTemplatesUntilStable_eq_self_iff {instructions : List (Instruction α)} :
    applyTemplatesUntilStable instructions = instructions ↔ IsTemplateFree instructions := by
  rw [← applyTemplates_eq_self_iff]
  constructor
  · intro stable
    have fixed := applyTemplates_applyTemplatesUntilStable instructions
    rwa [stable] at fixed
  · intro fixed
    rw [applyTemplatesUntilStable, fixed]
    exact if_neg (lt_irrefl _)

end Templates

/--
A run of one pass reaches the normal form of the pass: neither identities nor neighbours that undo
each other, no neighbours that have a product, no template at the front of a run on a wire.  The
passes leave exactly these lists as they are, and so a second run changes nothing.
-/
theorem passes_normalize [Scalar α] (instructions : List (Instruction α)) :
    (IsCancelled (cancelInverses instructions) ∧
      (cancelInverses instructions = instructions ↔ IsCancelled instructions) ∧
      cancelInverses (cancelInverses instructions) = cancelInverses instructions) ∧
    (IsMerged (mergeGates instructions) ∧
      (mergeGates instructions = instructions ↔ IsMerged instructions) ∧
      mergeGates (mergeGates instructions) = mergeGates instructions) ∧
    (IsTemplateFree (applyTemplatesUntilStable instructions) ∧
      applyTemplates (applyTemplatesUntilStable instructions) =
        applyTemplatesUntilStable instructions ∧
      (applyTemplatesUntilStable instructions = instructions ↔ IsTemplateFree instructions) ∧
      applyTemplatesUntilStable (applyTemplatesUntilStable instructions) =
        applyTemplatesUntilStable instructions) := by
  have cancelled := isCancelled_cancelInverses instructions
  have merged := isMerged_mergeGates instructions
  have fixed := applyTemplates_applyTemplatesUntilStable instructions
  have free := applyTemplates_eq_self_iff.1 fixed
  refine ⟨⟨cancelled, cancelInverses_eq_self_iff, ?_⟩, ⟨merged, mergeGates_eq_self_iff, ?_⟩,
    ⟨free, fixed, applyTemplatesUntilStable_eq_self_iff, ?_⟩⟩
  · exact cancelInverses_eq_self_iff.2 cancelled
  · exact mergeGates_eq_self_iff.2 merged
  · exact applyTemplatesUntilStable_eq_self_iff.2 free

end Peephole

end Anyonic
