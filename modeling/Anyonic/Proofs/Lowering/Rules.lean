import Mathlib.Data.List.Perm.Subperm
import Anyonic.Lowering
import Anyonic.Proofs.WellFormed

/-!
# The rules of lowering

Which instructions have a rule, and what the rules put in their place: gates on some of the
operands, with the right number of them, that are closer to elementary ones and never controlled
phases.
-/

namespace Anyonic

variable {α : Type}

namespace Instruction

theorem isElementary_iff {instruction : Instruction α} :
    instruction.isElementary ↔ instruction.isReset = false ∧
      ∀ gate ∈ instruction.gate?, gate ≠ .cz ∧ gate ≠ .swap ∧ (∀ angle, gate ≠ .cp angle) ∧
        gate ≠ .ccx ∧ ∀ controls, gate ≠ .mcz controls := by
  rcases instruction with ⟨operation, qubits⟩
  cases operation with
  | apply gate =>
      cases gate <;>
        simp [isElementary, compositeness, gate?, Gate.compositeness, isReset]
  | _ => simp [isElementary, compositeness, gate?, isReset]

end Instruction

namespace Lowering

open Instruction (single double onQubits)

/-- An instruction that may stand in the place of a gate on the given operands. -/
structure Part (depth : ℕ) (operands : List ℕ) (instruction : Instruction α) : Prop where
  arity : instruction.validateArity = .ok ()
  placed : instruction.qubits ≠ []
  notReset : instruction.isReset = false
  notPhase : ∀ angle, instruction.gate? ≠ some (.cp angle)
  simpler : instruction.compositeness < depth
  subset : ∀ qubit ∈ instruction.qubits, qubit ∈ operands
  distinct : operands.Nodup → instruction.qubits.Nodup

namespace Part

variable {depth : ℕ} {operands : List ℕ}

theorem gate {gate : Gate α} {qubits : List ℕ} (controlled : gate ≠ .mcz 0)
    (length : qubits.length = gate.arity) (placed : qubits ≠ [])
    (notPhase : ∀ angle, gate ≠ .cp angle) (simpler : gate.compositeness < depth)
    (subset : ∀ qubit ∈ qubits, qubit ∈ operands) (distinct : operands.Nodup → qubits.Nodup) :
    Part depth operands (onQubits gate qubits) where
  arity := (Instruction.validateArity_apply_iff gate qubits).2 ⟨controlled, length⟩
  placed := placed
  notReset := rfl
  notPhase angle isPhase := notPhase angle (Option.some.inj isPhase)
  simpler := simpler
  subset := subset
  distinct := distinct

theorem wire {gate : Gate α} {qubit : ℕ} (single : gate.arity = 1)
    (elementary : gate.compositeness = 0) (deep : 0 < depth) (listed : qubit ∈ operands) :
    Part depth operands (.single gate qubit) := by
  refine Part.gate ?_ (by simp [single]) (by simp) ?_ ?_ (by simpa using listed) (by simp)
  · rintro rfl
    cases elementary
  · rintro angle rfl
    cases elementary
  · exact Nat.lt_of_le_of_lt (Nat.le_of_eq elementary) deep

/-- Parts of a gate are parts of one that is on more operands and more composite. -/
theorem mono {depth' : ℕ} {operands' : List ℕ} {instruction : Instruction α}
    (part : Part depth operands instruction) (deeper : depth ≤ depth')
    (contained : operands.Subperm operands') : Part depth' operands' instruction where
  arity := part.arity
  placed := part.placed
  notReset := part.notReset
  notPhase := part.notPhase
  simpler := Nat.lt_of_lt_of_le part.simpler deeper
  subset qubit listed := contained.subset (part.subset qubit listed)
  distinct unique := by
    rcases contained with ⟨kept, perm, sublist⟩
    exact part.distinct (perm.nodup (unique.sublist sublist))

theorem wellFormed {width : ℕ} {source instruction : Instruction α}
    (part : Part depth source.qubits instruction) (sourceWellFormed : source.WellFormed width) :
    instruction.WellFormed width where
  arity := part.arity
  inRange qubit listed := sourceWellFormed.inRange qubit (part.subset qubit listed)
  distinct := part.distinct sourceWellFormed.distinct

end Part

section Parts

variable {depth : ℕ}

theorem controlledNot_part {control target : ℕ} {operands : List ℕ} (deep : 0 < depth)
    (controlListed : control ∈ operands) (targetListed : target ∈ operands)
    (different : operands.Nodup → control ≠ target) :
    Part depth operands (controlledNot control target : Instruction α) := by
  refine Part.gate (by simp) rfl (by simp) (by simp) deep ?_ ?_
  · simp [controlListed, targetListed]
  · simpa using different

theorem controlledSign_parts (control target : ℕ) :
    ∀ instruction ∈ (controlledSign control target : List (Instruction α)),
      Part 1 [control, target] instruction := by
  have h : Part 1 [control, target] (single .h target : Instruction α) :=
    Part.wire rfl rfl Nat.one_pos (by simp)
  simp [controlledSign, h, controlledNot_part]

theorem exchange_parts (first second : ℕ) :
    ∀ instruction ∈ (exchange first second : List (Instruction α)),
      Part 1 [first, second] instruction := by
  simp [exchange, controlledNot_part, eq_comm]

theorem toffoli_parts (control other target : ℕ) :
    ∀ instruction ∈ (toffoli control other target : List (Instruction α)),
      Part 2 [control, other, target] instruction := by
  have wire (gate : Gate α) (single : gate.arity = 1) (elementary : gate.compositeness = 0)
      (qubit : ℕ) (listed : qubit ∈ [control, other, target]) :
      Part 2 [control, other, target] (.single gate qubit) :=
    Part.wire single elementary Nat.two_pos listed
  have h := wire .h rfl rfl
  have t := wire .t rfl rfl
  have tdg := wire .tdg rfl rfl
  simp +contextual [toffoli, h, t, tdg, controlledNot_part]

/-- A not with any number of controls is one gate, possibly between changes of basis. -/
theorem multiControlledNot_parts {controls : List ℕ} (some : controls ≠ [])
    (small : controls.length + 1 < wrapLimit) (target : ℕ) :
    ∀ instruction ∈ (multiControlledNot controls target : List (Instruction α)),
      Part (controls.length + 2) (controls ++ [target]) instruction := by
  unfold multiControlledNot
  split
  · simp [controlledNot_part]
  · rename_i control other
    have part : Part 4 [control, other, target] (onQubits .ccx [control, other, target] :
        Instruction α) :=
      Part.gate (by simp) rfl (by simp) (by simp) (by simp [Gate.compositeness]) (by simp) id
    simpa using part
  · have part : Part (controls.length + 2) (controls ++ [target])
        (onQubits (.mcz controls.length) (controls ++ [target]) : Instruction α) :=
      Part.gate (by simpa using some) (by simp [Gate.arity, wrappingSucc_of_lt small]) (by simp)
        (by simp) (by simp [Gate.compositeness]) (by simp) id
    have h : Part (controls.length + 2) (controls ++ [target])
        (single .h target : Instruction α) :=
      Part.wire rfl rfl (by simp) (by simp)
    simp [part, h]

variable [Scalar α]

theorem controlledPhase_parts (angle : α) (control target : ℕ) :
    ∀ instruction ∈ controlledPhase angle control target,
      Part 1 [control, target] instruction := by
  have p (angle : α) {qubit : ℕ} (listed : qubit ∈ [control, target]) :
      Part 1 [control, target] (single (.p angle) qubit) :=
    Part.wire rfl rfl Nat.one_pos listed
  simp [controlledPhase, p, controlledNot_part]

theorem multiControlledPhase_parts (angle : α) {controls : List ℕ}
    (small : controls.length + 1 < wrapLimit) (target : ℕ) :
    ∀ instruction ∈ multiControlledPhase angle controls target,
      Part (controls.length + 1) (controls ++ [target]) instruction := by
  induction controls generalizing angle with
  | nil =>
      have p : Part 1 [target] (single (.p angle) target) :=
        Part.wire rfl rfl Nat.one_pos List.mem_cons_self
      simpa [multiControlledPhase] using p
  | cons control rest ih =>
      have small' : rest.length + 1 < wrapLimit := Nat.lt_of_succ_lt small
      have phase (angle : α) : ∀ instruction ∈ controlledPhase angle control target,
          Part (rest.length + 2) (control :: rest ++ [target]) instruction := by
        intro instruction listed
        refine (controlledPhase_parts angle control target instruction listed).mono (by simp) ?_
        exact ((List.sublist_append_right rest [target]).cons_cons control).subperm
      cases rest with
      | nil =>
          have sign : Part 2 [control, target] (double .cz control target : Instruction α) :=
            Part.gate (by simp) rfl (by simp) (by simp) (by simp [Gate.compositeness]) (by simp) id
          unfold multiControlledPhase
          split
          · simpa using sign
          · exact phase angle
      | cons next rest =>
          have not : ∀ instruction ∈ (multiControlledNot (next :: rest).reverse control :
              List (Instruction α)),
              Part (rest.length + 3) (control :: next :: rest ++ [target]) instruction := by
            intro instruction listed
            refine (multiControlledNot_parts (by simp) (by simpa using small') control instruction
              listed).mono (by simp) ?_
            have perm : ((next :: rest).reverse ++ [control]).Perm (control :: next :: rest) :=
              (List.perm_append_singleton _ _).trans ((List.reverse_perm _).cons control)
            exact perm.subperm.trans (List.sublist_append_left _ [target]).subperm
          intro instruction listed
          simp only [multiControlledPhase, List.mem_append] at listed
          rcases listed with (((listed | listed) | listed) | listed) | listed
          · exact phase _ instruction listed
          · exact not instruction listed
          · exact phase _ instruction listed
          · exact not instruction listed
          · exact (ih (angle / 2.0) small' instruction listed).mono (by simp)
              (List.sublist_cons_self control _).subperm

theorem multiControlledSign_parts {controls : List ℕ} (small : controls.length + 1 < wrapLimit)
    (target : ℕ) :
    ∀ instruction ∈ (multiControlledSign controls target : List (Instruction α)),
      Part (controls.length + 1) (controls ++ [target]) instruction := by
  unfold multiControlledSign
  split
  · rename_i control
    have part : Part 2 [control, target] (double .cz control target : Instruction α) :=
      Part.gate (by simp) rfl (by simp) (by simp) (by simp [Gate.compositeness]) (by simp) id
    simpa using part
  · rename_i control other
    have part : Part 3 [control, other, target] (onQubits .ccx [control, other, target] :
        Instruction α) :=
      Part.gate (by simp) rfl (by simp) (by simp) (by simp [Gate.compositeness]) (by simp) id
    have h : Part 3 [control, other, target] (single .h target : Instruction α) :=
      Part.wire rfl rfl (by simp) (by simp)
    simp [part, h]
  · intro instruction listed
    have part := multiControlledPhase_parts Scalar.pi (by simpa using small) target instruction
      listed
    exact part.mono (by simp) ((List.reverse_perm controls).append_right [target]).subperm

end Parts

/-- An instruction that lowering does not reject for what it is. -/
structure Lowerable (rules : LoweringRules) (instruction : Instruction α) : Prop where
  notReset : instruction.isReset = false
  phase : rules.controlledPhase ∨ ∀ angle, instruction.gate? ≠ some (.cp angle)
  placed : ∀ controls, instruction.gate? = some (.mcz controls) → instruction.qubits ≠ []

/-- A gate that no rule applies to although it is not elementary: a controlled phase without its
rule, or a sign on no qubits at all. -/
def Stuck (rules : LoweringRules) (instruction : Instruction α) : Prop :=
  (rules.controlledPhase = false ∧ ∃ angle, instruction.gate? = some (.cp angle)) ∨
    (∃ controls, instruction.gate? = some (.mcz controls)) ∧ instruction.qubits = []

theorem Stuck.isElementary_eq_false {rules : LoweringRules} {instruction : Instruction α}
    (stuck : Stuck rules instruction) : instruction.isElementary = false := by
  rcases stuck with ⟨-, angle, isGate⟩ | ⟨⟨controls, isGate⟩, -⟩ <;>
    simp [Instruction.isElementary, Instruction.compositeness, isGate, Gate.compositeness]

theorem not_lowerable_iff {rules : LoweringRules} {instruction : Instruction α} :
    ¬Lowerable rules instruction ↔ instruction.isReset ∨ Stuck rules instruction := by
  constructor
  · intro rejected
    by_contra neither
    simp only [Stuck, not_or, not_and, not_exists, Bool.not_eq_true] at neither
    rcases neither with ⟨notReset, phase, placed⟩
    refine rejected ⟨notReset, ?_, fun controls isSign => placed ⟨controls, isSign⟩⟩
    cases on : rules.controlledPhase with
    | true => exact .inl rfl
    | false => exact .inr (phase on)
  · rintro (reset | ⟨off, angle, isPhase⟩ | ⟨⟨controls, isSign⟩, none⟩) lowerable
    · cases reset.symm.trans lowerable.notReset
    · rcases lowerable.phase with on | absent
      · cases on.symm.trans off
      · exact absent angle isPhase
    · exact lowerable.placed controls isSign none

theorem Part.lowerable {depth : ℕ} {operands : List ℕ} {instruction : Instruction α}
    (part : Part depth operands instruction) (rules : LoweringRules) :
    Lowerable rules instruction :=
  ⟨part.notReset, .inr part.notPhase, fun _ _ => part.placed⟩

section Rules

variable [Scalar α]

/-- The rules, for instructions with the right number of operands. -/
inductive Rule (rules : LoweringRules) : Instruction α → List (Instruction α) → Prop where
  | cz (control target : ℕ) : Rule rules (double .cz control target) (controlledSign control target)
  | swap (first second : ℕ) : Rule rules (double .swap first second) (exchange first second)
  | cp (on : rules.controlledPhase) (angle : α) (control target : ℕ) :
      Rule rules (double (.cp angle) control target) (controlledPhase angle control target)
  | ccx (control other target : ℕ) :
      Rule rules (onQubits .ccx [control, other, target]) (toffoli control other target)
  | mcz {controls : List ℕ} (some : controls ≠ []) (small : controls.length + 1 < wrapLimit)
      (target : ℕ) :
      Rule rules (onQubits (.mcz controls.length) (controls ++ [target]))
        (multiControlledSign controls target)

namespace Rule

variable {rules : LoweringRules} {instruction : Instruction α} {expanded : List (Instruction α)}

theorem of_expand? (arity : instruction.validateArity = .ok ())
    (found : expand? rules instruction = some expanded) : Rule rules instruction expanded := by
  rcases instruction with ⟨operation, qubits⟩
  cases operation with
  | apply gate =>
      rcases (Instruction.validateArity_apply_iff gate qubits).1 arity with ⟨controlled, length⟩
      simp only [expand?, Instruction.gate?] at found
      split at found
      · rename_i isGate
        cases isGate
        cases found
        exact cz _ _
      · rename_i isGate
        cases isGate
        cases found
        exact swap _ _
      · rename_i isGate
        cases isGate
        split at found
        · rename_i on
          cases found
          exact cp on _ _ _
        · cases found
      · rename_i isGate
        cases isGate
        cases found
        exact ccx _ _ _
      · rename_i controls isGate
        cases isGate
        rcases Option.map_eq_some_iff.1 found with ⟨target, last, rfl⟩
        rcases List.getLast?_eq_some_iff.1 last with ⟨front, rfl⟩
        rw [List.length_append, List.length_singleton, eq_comm, Gate.arity,
          wrappingSucc_eq_add_one_iff] at length
        rcases length with ⟨rfl, small⟩
        rw [List.dropLast_concat]
        exact mcz (fun empty => controlled (by rw [empty]; rfl)) small target
      · cases found
  | _ => simp [expand?, Instruction.gate?] at found

theorem expand?_eq (rule : Rule rules instruction expanded) :
    expand? rules instruction = some expanded := by
  cases rule with
  | cz => rfl
  | swap => rfl
  | cp on => simp [expand?, double, onQubits, Instruction.gate?, on]
  | ccx => rfl
  | mcz => simp [expand?, onQubits, Instruction.gate?]

theorem exists_of_composite (arity : instruction.validateArity = .ok ())
    (lowerable : Lowerable rules instruction) (composite : instruction.isElementary = false) :
    ∃ expanded, Rule rules instruction expanded := by
  rcases instruction with ⟨operation, qubits⟩
  cases operation with
  | apply gate =>
      rcases (Instruction.validateArity_apply_iff gate qubits).1 arity with ⟨controlled, length⟩
      cases gate with
      | cz =>
          rcases List.length_eq_two.1 length with ⟨control, target, rfl⟩
          exact ⟨_, cz control target⟩
      | swap =>
          rcases List.length_eq_two.1 length with ⟨first, second, rfl⟩
          exact ⟨_, swap first second⟩
      | cp angle =>
          rcases List.length_eq_two.1 length with ⟨control, target, rfl⟩
          have on := lowerable.phase.resolve_right fun absent => absent angle rfl
          exact ⟨_, cp on angle control target⟩
      | ccx =>
          rcases List.length_eq_three.1 length with ⟨control, other, target, rfl⟩
          exact ⟨_, ccx control other target⟩
      | mcz controls =>
          rcases List.eq_nil_or_concat qubits with rfl | ⟨front, target, rfl⟩
          · exact absurd rfl (lowerable.placed controls rfl)
          · rw [List.length_concat, eq_comm, Gate.arity, wrappingSucc_eq_add_one_iff] at length
            rcases length with ⟨rfl, small⟩
            rw [List.concat_eq_append]
            exact ⟨_, mcz (fun empty => controlled (by rw [empty]; rfl)) small target⟩
      | _ => cases composite
  | reset => cases lowerable.notReset
  | _ => cases composite

/-- The rules put in parts of what they replace. -/
theorem parts (rule : Rule rules instruction expanded) :
    ∀ part ∈ expanded, Part instruction.compositeness instruction.qubits part := by
  cases rule with
  | cz control target => exact controlledSign_parts control target
  | swap first second => exact exchange_parts first second
  | cp _ angle control target => exact controlledPhase_parts angle control target
  | ccx control other target => exact toffoli_parts control other target
  | mcz _ small target => exact multiControlledSign_parts small target

end Rule

end Rules

end Lowering

end Anyonic
