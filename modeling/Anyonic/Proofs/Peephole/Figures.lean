import Anyonic.Proofs.Circuit.Depth
import Anyonic.Proofs.Peephole.WellFormed

/-!
# Figures of a list under rewriting

A rewriting step makes a list shorter, and it adds neither T gates nor depth.  For the depth the
template steps are the ones to look at: the gates of a template come to stand where its first gate
stood, in front of instructions on other wires.  Nothing that touches the wire is passed on the
way, so the wire is ahead of the old walk only until the last gate of the template.
-/

namespace Anyonic

variable {α : Type}

namespace Template

theorem length_replacement_le {template : Template α} (listed : template ∈ all) :
    template.replacement.length ≤ template.tail.length := by
  have checked : ∀ template ∈ (all : List (Template α)),
      template.replacement.length ≤ template.tail.length := by
    simp [all]
  exact checked template listed

theorem countP_isT_replacement_le {template : Template α} (listed : template ∈ all) :
    template.replacement.countP Gate.isT ≤ (template.head :: template.tail).countP Gate.isT := by
  have checked : ∀ template ∈ (all : List (Template α)),
      template.replacement.countP Gate.isT ≤
        (template.head :: template.tail).countP Gate.isT := by
    simp [all, Gate.isT]
  exact checked template listed

end Template

theorem tCount_append (first second : List (Instruction α)) :
    tCount (first ++ second) = tCount first + tCount second :=
  List.countP_append

theorem tCount_map_single (gates : List (Gate α)) (wire : ℕ) :
    tCount (gates.map (Instruction.single · wire)) = gates.countP Gate.isT := by
  simp only [tCount, List.countP_map]
  rfl

theorem tCount_le_of_sublist {first second : List (Instruction α)}
    (sublist : first.Sublist second) : tCount first ≤ tCount second :=
  sublist.countP_le

namespace Instruction

theorem mem_qubits_of_wire? {instruction : Instruction α} {wire : ℕ}
    (isWire : instruction.wire? = some wire) : wire ∈ instruction.qubits := by
  rcases exists_of_wire? isWire with ⟨-, -, -, head⟩
  exact List.mem_of_mem_head? head

/-- A single-qubit gate takes its wire up to the depth at which it ends. -/
theorem raised_of_wire? {instruction : Instruction α} {wire : ℕ}
    (isWire : instruction.wire? = some wire) (reach : Finset ℕ) (depths : ℕ → ℕ) :
    depths wire + 1 ≤ instruction.endDepth reach depths ∧
      instruction.depthsAfter reach depths wire = instruction.endDepth reach depths := by
  have spanned : wire ∈ instruction.span reach :=
    mem_span_of_mem_qubits (mem_qubits_of_wire? isWire)
  have layer : instruction.layers = 1 := by
    rcases exists_of_wire? isWire with ⟨gate, instruction_eq, -, -⟩
    rw [instruction_eq]
    rfl
  have raised := add_layers_le_endDepth depths spanned
  rw [layer] at raised
  exact ⟨raised, depthsAfter_of_mem spanned⟩

end Instruction

theorem Product.length_instructions_le (product : Product α) (qubits : List ℕ) :
    (product.instructions qubits).length ≤ 1 := by
  cases product <;> simp [instructions]

variable [Scalar α]

namespace Product

/-- No product is a T gate. -/
theorem tCount_instructions {first second : Gate α} {product : Product α}
    (found : ofGates? first second = some product) (qubits : List ℕ) :
    tCount (product.instructions qubits) = 0 := by
  cases product with
  | nothing => rfl
  | one gate =>
      have free : gate.isT = false := by
        rcases ofGates?_cases found with ⟨turn, -, angle, angle', -, -, product_eq⟩ | ⟨-, -, cases⟩
        · unfold rotation at product_eq
          split at product_eq
          · cases product_eq
          · cases product_eq
            cases turn <;> rfl
        · simp only [one.injEq, reduceCtorEq, and_false, or_false] at cases
          rcases cases with ⟨-, rfl⟩ | ⟨-, rfl⟩ | ⟨-, rfl⟩ | ⟨-, rfl⟩ <;> rfl
      simp [instructions, tCount, Instruction.isT, Instruction.gate?, Instruction.onQubits, free]

end Product

namespace Peephole

section Wire

variable {wire : ℕ} {gates : List (Gate α)} {rest remaining : List (Instruction α)}

theorem Taken.tCount_eq (taken : Taken wire gates rest remaining)
    (free : ∀ gate ∈ gates, gate.angle? = none) :
    tCount rest = gates.countP Gate.isT + tCount remaining := by
  induction taken with
  | done => simp
  | @take gate _ next _ _ _ isGate _ ih =>
      rcases List.forall_mem_cons.1 free with ⟨headFree, tailFree⟩
      have own : next.isT = gate.isT := by
        rw [Instruction.eq_of_isGate isGate headFree]
        rfl
      have := ih tailFree
      simp only [tCount, List.countP_cons, own] at this ⊢
      omega
  | pass _ _ ih =>
      have := ih free
      simp only [tCount, List.countP_cons] at this ⊢
      omega

/-- Taking gates from a wire ends no deeper, although the wire may start ahead by as many layers
as there are gates. -/
theorem Taken.deepestFrom_le (taken : Taken wire gates rest remaining) {reach reach' : Finset ℕ}
    (wider : reach ⊆ reach') {depths ahead : ℕ → ℕ}
    (onWire : ahead wire ≤ depths wire + gates.length)
    (elsewhere : ∀ other, other ≠ wire → ahead other ≤ depths other) :
    max (ahead wire) (deepestFrom reach ahead remaining) ≤
      max (depths wire) (deepestFrom reach' depths rest) := by
  -- the lead on the wire shrinks by one with every gate that is taken
  induction taken generalizing reach reach' depths ahead with
  | done =>
      apply max_le_max onWire
      apply deepestFrom_le_of_sublist (.refl _) wider
      intro other
      by_cases same : other = wire
      · subst same
        exact onWire
      · exact elsewhere other same
  | @take gate gates next rest remaining isWire _ _ ih =>
      rcases Instruction.raised_of_wire? isWire reach' depths with ⟨raised, after_eq⟩
      have onWire' : ahead wire ≤ next.depthsAfter reach' depths wire + gates.length := by
        rw [after_eq]
        simp only [List.length_cons] at onWire
        omega
      have elsewhere' : ∀ other, other ≠ wire →
          ahead other ≤ next.depthsAfter reach' depths other := by
        intro other different
        exact (elsewhere other different).trans (Instruction.le_depthsAfter other)
      have bounded := ih (wider.trans (next.subset_reachAfter reach')) onWire' elsewhere'
      rw [after_eq] at bounded
      exact bounded.trans (le_max_right _ _)
  | @pass gates next rest remaining untouched _ ih =>
      have free : ∀ reach, wire ∉ next.span reach := by
        intro reach spanned
        cases untouched.symm.trans (Instruction.touches_of_mem_span spanned)
      have below : ∀ other ∈ next.span reach, ahead other ≤ depths other := by
        intro other spanned
        apply elsewhere
        rintro rfl
        exact free reach spanned
      have onWire' : next.depthsAfter reach ahead wire ≤
          next.depthsAfter reach' depths wire + gates.length := by
        rwa [Instruction.depthsAfter_of_not_mem (free _),
          Instruction.depthsAfter_of_not_mem (free _)]
      have elsewhere' : ∀ other, other ≠ wire →
          next.depthsAfter reach ahead other ≤ next.depthsAfter reach' depths other := by
        intro other different
        exact Instruction.depthsAfter_mono wider below (elsewhere other different)
      have ends := Instruction.endDepth_mono wider below
      have bounded := ih (next.reachAfter_mono wider) onWire' elsewhere'
      rw [Instruction.depthsAfter_of_not_mem (free _),
        Instruction.depthsAfter_of_not_mem (free _)] at bounded
      simp only [deepestFrom]
      omega

end Wire

namespace StepBy

variable {granted : Comparison α → Prop} {source target : List (Instruction α)}

theorem length_lt (step : StepBy granted source target) : target.length < source.length := by
  cases step with
  | drop identity => simp
  | cancel undone commute =>
      simp only [List.length_append, List.length_cons]
      omega
  | @merge before after first second product found =>
      have := product.length_instructions_le second.qubits
      simp only [List.length_append, List.length_cons]
      omega
  | template found =>
      rcases exists_of_matchTemplate? found with ⟨wire, template, listed, -, -, taken, rfl⟩
      have := taken.length_eq
      have := template.length_replacement_le listed
      simp only [List.length_append, List.length_cons, List.length_map]
      omega

theorem tCount_le (step : StepBy granted source target) : tCount target ≤ tCount source := by
  cases step with
  | @drop before after instruction identity =>
      apply tCount_le_of_sublist
      exact (List.Sublist.refl before).append (List.sublist_cons_self _ _)
  | @cancel before between after first second undone commute =>
      apply tCount_le_of_sublist
      apply (List.Sublist.refl before).append
      apply List.Sublist.cons
      exact (List.Sublist.refl between).append (List.sublist_cons_self _ _)
  | @merge before after first second product found =>
      rcases Product.exists_of_ofInstructions? found with
        ⟨gate, other, qubits, -, -, -, -, product_eq⟩
      have := Product.tCount_instructions product_eq second.qubits
      have : tCount after ≤ tCount (first :: second :: after) :=
        tCount_le_of_sublist (((List.Sublist.refl after).cons second).cons first)
      simp only [tCount_append]
      omega
  | @template before rest replacement remaining instruction found =>
      rcases exists_of_matchTemplate? found with
        ⟨wire, template, listed, -, instruction_eq, taken, rfl⟩
      have free : ∀ gate ∈ template.tail, gate.angle? = none := by
        intro gate used
        exact (Template.free_of_mem_all listed (by simp [used])).1
      have rest_eq := taken.tCount_eq free
      have fewer := template.countP_isT_replacement_le listed
      have own : instruction.isT = template.head.isT := by
        rw [instruction_eq]
        rfl
      have cons_eq : tCount (instruction :: rest) =
          (template.head :: template.tail).countP Gate.isT + tCount remaining := by
        simp only [tCount, List.countP_cons, own] at rest_eq ⊢
        omega
      simp only [tCount_append, tCount_map_single, cons_eq]
      omega

theorem deepestFrom_le (step : StepBy granted source target) (reach : Finset ℕ)
    (depths : ℕ → ℕ) : deepestFrom reach depths target ≤ deepestFrom reach depths source := by
  cases step with
  | @drop before after instruction identity =>
      apply deepestFrom_append_le
      intro reach depths
      exact deepestFrom_le_of_sublist (List.sublist_cons_self _ _) subset_rfl fun _ => le_rfl
  | @cancel before between after first second undone commute =>
      apply deepestFrom_append_le
      intro reach depths
      apply deepestFrom_le_of_sublist _ subset_rfl fun _ => le_rfl
      apply List.Sublist.cons
      exact (List.Sublist.refl between).append (List.sublist_cons_self _ _)
  | @merge before after first second product found =>
      rcases Product.exists_of_ofInstructions? found with
        ⟨gate, other, qubits, rfl, rfl, -, -, -⟩
      apply deepestFrom_append_le
      intro reach depths
      cases product with
      | nothing =>
          apply deepestFrom_le_of_sublist _ subset_rfl fun _ => le_rfl
          exact (List.sublist_cons_self _ _).cons _
      | one merged =>
          -- the product stands on the operands of the first gate, and the second is left out
          apply (deepestFrom_cons_onQubits merged gate qubits after reach depths).le.trans
          apply deepestFrom_le_of_sublist _ subset_rfl fun _ => le_rfl
          exact (List.sublist_cons_self _ _).cons_cons _
  | @template before rest replacement remaining instruction found =>
      rcases exists_of_matchTemplate? found with
        ⟨wire, template, listed, isWire, -, taken, rfl⟩
      apply deepestFrom_append_le
      intro reach depths
      have shorter := template.length_replacement_le listed
      rcases Instruction.raised_of_wire? isWire reach depths with ⟨raised, after_eq⟩
      -- the whole replacement is there at once, but the old wire has only passed the first gate
      let ahead := Function.update depths wire (depths wire + template.replacement.length)
      have ahead_eq : ahead wire = depths wire + template.replacement.length :=
        Function.update_self _ _ _
      have onWire : ahead wire ≤
          instruction.depthsAfter reach depths wire + template.tail.length := by
        rw [ahead_eq, after_eq]
        omega
      have elsewhere : ∀ other, other ≠ wire →
          ahead other ≤ instruction.depthsAfter reach depths other := by
        intro other different
        have same : ahead other = depths other := Function.update_of_ne different _ _
        rw [same]
        exact Instruction.le_depthsAfter other
      have wider : reach ∪ {wire} ⊆ instruction.reachAfter reach := by
        apply Finset.union_subset_union_right
        simpa using Instruction.mem_qubits_of_wire? isWire
      have taken_le := taken.deepestFrom_le wider onWire elsewhere
      rw [ahead_eq, after_eq] at taken_le
      exact (deepestFrom_map_single_le template.replacement wire remaining reach depths).trans
        taken_le

end StepBy

namespace ReachesBy

variable {granted : Comparison α → Prop} {source target : List (Instruction α)}

/-- A figure that no step increases is not increased by any number of steps. -/
theorem figure_le (reaches : ReachesBy granted source target) {figure : List (Instruction α) → ℕ}
    (step_le : ∀ {source target}, StepBy granted source target → figure target ≤ figure source) :
    figure target ≤ figure source := by
  induction reaches with
  | refl => exact le_rfl
  | tail _ step ih => exact (step_le step).trans ih

theorem length_le (reaches : ReachesBy granted source target) : target.length ≤ source.length :=
  reaches.figure_le fun step => step.length_lt.le

/-- At any width, also one that leaves out wires that are used. -/
theorem dependencyDepth_le (reaches : ReachesBy granted source target) (width : ℕ) :
    dependencyDepth target width ≤ dependencyDepth source width := by
  rw [dependencyDepth_eq, dependencyDepth_eq]
  apply reaches.figure_le
  intro source target step
  exact step.deepestFrom_le _ _

end ReachesBy

end Peephole

/-- No figure of a report is larger after the optimisation than before, whatever the list and the
level; both depths are taken at the width that the list uses before. -/
theorem optimizeWithReport_le (instructions : List (Instruction α)) (level : ℕ) :
    let optimized := (optimizeWithReport instructions level).1
    let report := (optimizeWithReport instructions level).2
    report.optimizedGates ≤ report.originalGates ∧
      report.optimizedT ≤ report.originalT ∧
      report.optimizedDepth ≤ report.originalDepth ∧
      report.originalDepth = dependencyDepth instructions (usedWidth instructions) ∧
      report.optimizedDepth = dependencyDepth optimized (usedWidth instructions) := by
  have reaches : Peephole.Reaches instructions (optimize instructions level) :=
    optimize_reaches instructions level
  have shorter : (optimize instructions level).length ≤ instructions.length :=
    reaches.figure_le fun step => step.length_lt.le
  have fewer : tCount (optimize instructions level) ≤ tCount instructions :=
    reaches.figure_le fun step => step.tCount_le
  exact ⟨shorter, fewer, reaches.dependencyDepth_le (usedWidth instructions), rfl, rfl⟩

end Anyonic
