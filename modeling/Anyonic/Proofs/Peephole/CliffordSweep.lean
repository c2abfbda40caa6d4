import Mathlib.Data.List.Basic
import Mathlib.Data.List.Chain
import Mathlib.Logic.Relation
import Anyonic.Peephole.CliffordSweep

/-!
# Clifford gates come to rest

A sweep exchanges neighbours, a gate outside the Clifford group with a Clifford gate that commutes
with it.  An exchange touches gates only and keeps each of the two kinds in its order, so all that
is said here about a whole run is said first about one exchange.  Every exchange removes exactly
one pair of gates in the wrong order.  There are fewer such pairs than the square of the length, so
the sweeps end because nothing moves any more, long before their number runs out.
-/

namespace Anyonic

variable {α : Type}

namespace Instruction

/-- Whether the operation is a gate of the Clifford group. -/
def isClifford (instruction : Instruction α) : Bool := instruction.gate?.any Gate.isClifford

/-- Whether the operation is a gate outside the Clifford group. -/
def isNonClifford (instruction : Instruction α) : Bool :=
  instruction.gate?.any fun gate => !gate.isClifford

theorem isClifford_eq_false {instruction : Instruction α}
    (outside : instruction.isNonClifford) : instruction.isClifford = false := by
  unfold isNonClifford at outside
  unfold isClifford
  cases isGate : instruction.gate? <;> simp_all

theorem isNonClifford_eq_false {instruction : Instruction α}
    (clifford : instruction.isClifford) : instruction.isNonClifford = false := by
  by_contra outside
  simp [isClifford_eq_false (by simpa using outside)] at clifford

theorem yieldsTo_iff [Scalar α] {first second : Instruction α} :
    first.yieldsTo second ↔
      first.isNonClifford ∧ second.isClifford ∧ first.commutes second := by
  simp [yieldsTo, isNonClifford, isClifford, and_assoc]

end Instruction

namespace Peephole

/-- The instruction at an index, if it is a measurement, a reset or a barrier. -/
def fixtureAt (index : ℕ) (instructions : List (Instruction α)) : Option (Instruction α) :=
  instructions[index]?.filter fun instruction => instruction.gate?.isNone

/-- The pairs of gates of which the first is outside the Clifford group and the second inside. -/
def misplaced : List (Instruction α) → ℕ
  | [] => 0
  | first :: rest =>
      (if first.isNonClifford then rest.countP Instruction.isClifford else 0) + misplaced rest

theorem misplaced_cons (first : Instruction α) (rest : List (Instruction α)) :
    misplaced (first :: rest) =
      (if first.isNonClifford then rest.countP Instruction.isClifford else 0) + misplaced rest :=
  rfl

theorem misplaced_le (instructions : List (Instruction α)) :
    misplaced instructions ≤ instructions.length * instructions.length := by
  induction instructions with
  | nil => simp [misplaced]
  | cons first rest ih =>
      have counted : rest.countP Instruction.isClifford ≤ rest.length := List.countP_le_length
      simp only [misplaced_cons, List.length_cons, Nat.add_mul, Nat.mul_add]
      split <;> omega

variable [Scalar α]

/-- A gate outside the Clifford group and a commuting Clifford gate behind it change places. -/
inductive Exchange : List (Instruction α) → List (Instruction α) → Prop where
  | here {first second : Instruction α} (rest : List (Instruction α))
      (outside : first.isNonClifford) (clifford : second.isClifford)
      (commute : first.commutes second) :
      Exchange (first :: second :: rest) (second :: first :: rest)
  | later (first : Instruction α) {source target : List (Instruction α)}
      (exchange : Exchange source target) :
      Exchange (first :: source) (first :: target)

/-- A list that comes from another by exchanges. -/
abbrev Exchanges : List (Instruction α) → List (Instruction α) → Prop :=
  Relation.ReflTransGen Exchange

/-- No gate outside the Clifford group stands before a Clifford gate with which it commutes. -/
def AtRest (instructions : List (Instruction α)) : Prop :=
  instructions.IsChain fun first second =>
    ¬(first.isNonClifford ∧ second.isClifford ∧ first.commutes second)

namespace Exchange

variable {source target : List (Instruction α)}

theorem perm (exchange : Exchange source target) : target.Perm source := by
  induction exchange with
  | here rest outside clifford commute => exact .swap _ _ rest
  | later first exchange ih => exact ih.cons first

theorem fixtureAt_eq (exchange : Exchange source target) (index : ℕ) :
    fixtureAt index target = fixtureAt index source := by
  induction exchange generalizing index with
  | here rest outside clifford commute =>
      have isGate := Option.isNone_eq_false_iff.2 (Option.isSome_of_any outside)
      have isGate' := Option.isNone_eq_false_iff.2 (Option.isSome_of_any clifford)
      match index with
      | 0 | 1 => simp [fixtureAt, Option.filter, isGate, isGate']
      | index + 2 => rfl
  | later first exchange ih =>
      cases index with
      | zero => rfl
      | succ index => exact ih index

theorem filter_isClifford_eq (exchange : Exchange source target) :
    target.filter Instruction.isClifford = source.filter Instruction.isClifford := by
  induction exchange with
  | here rest outside clifford commute =>
      simp [clifford, Instruction.isClifford_eq_false outside]
  | later first exchange ih => simp [List.filter_cons, ih]

theorem filter_isNonClifford_eq (exchange : Exchange source target) :
    target.filter Instruction.isNonClifford = source.filter Instruction.isNonClifford := by
  induction exchange with
  | here rest outside clifford commute =>
      simp [outside, Instruction.isNonClifford_eq_false clifford]
  | later first exchange ih => simp [List.filter_cons, ih]

/-- An exchange puts one pair of gates in order and leaves all others as they are. -/
theorem misplaced_eq (exchange : Exchange source target) :
    misplaced source = misplaced target + 1 := by
  induction exchange with
  | here rest outside clifford commute =>
      have inside := Instruction.isNonClifford_eq_false clifford
      simp only [misplaced_cons, outside, ↓reduceIte, clifford, List.countP_cons_of_pos, inside,
        Bool.false_eq_true, Nat.zero_add]
      omega
  | later first exchange ih =>
      simp only [misplaced_cons, ih, exchange.perm.countP_eq]
      omega

end Exchange

namespace Exchanges

variable {source target : List (Instruction α)}

theorem later (first : Instruction α) (exchanges : Exchanges source target) :
    Exchanges (first :: source) (first :: target) :=
  exchanges.lift (first :: ·) fun _ _ => Exchange.later first

theorem perm (exchanges : Exchanges source target) : target.Perm source := by
  induction exchanges with
  | refl => exact .refl source
  | tail _ exchange ih => exact exchange.perm.trans ih

/-- What every exchange keeps is kept by a run of exchanges. -/
theorem view_eq {β : Type} (view : List (Instruction α) → β)
    (kept : ∀ {source target}, Exchange source target → view target = view source)
    (exchanges : Exchanges source target) : view target = view source := by
  induction exchanges with
  | refl => rfl
  | tail _ exchange ih => exact (kept exchange).trans ih

theorem misplaced_le (exchanges : Exchanges source target) :
    misplaced target ≤ misplaced source := by
  induction exchanges with
  | refl => exact le_rfl
  | tail _ exchange ih =>
      have := exchange.misplaced_eq
      omega

end Exchanges

section Sweep

variable {instructions : List (Instruction α)}

theorem sweepOnce_of_yieldsTo {first second : Instruction α} (yields : first.yieldsTo second)
    (rest : List (Instruction α)) :
    sweepOnce (first :: second :: rest) = (second :: first :: sweepCliffords rest, true) := by
  rw [sweepOnce, if_pos yields, sweepCliffords]

theorem sweepOnce_of_not_yieldsTo {first second : Instruction α} (stays : ¬first.yieldsTo second)
    (rest : List (Instruction α)) :
    sweepOnce (first :: second :: rest) =
      (first :: sweepCliffords (second :: rest), (sweepOnce (second :: rest)).2) := by
  rw [sweepOnce, if_neg stays, sweepCliffords]

theorem sweepCliffords_exchanges (instructions : List (Instruction α)) :
    Exchanges instructions (sweepCliffords instructions) := by
  induction instructions using sweepOnce.induct with
  | case1 first second rest yields ih =>
      rw [sweepCliffords, sweepOnce_of_yieldsTo yields]
      rcases Instruction.yieldsTo_iff.1 yields with ⟨outside, clifford, commute⟩
      exact ((ih.later first).later second).head (.here rest outside clifford commute)
  | case2 first second rest stays ih =>
      rw [sweepCliffords, sweepOnce_of_not_yieldsTo stays]
      exact ih.later first
  | case3 instructions short =>
      rw [sweepCliffords, sweepOnce]
      exact short

/-- A sweep that moves something makes an exchange. -/
theorem misplaced_sweepCliffords_lt (moved : (sweepOnce instructions).2) :
    misplaced (sweepCliffords instructions) < misplaced instructions := by
  induction instructions using sweepOnce.induct with
  | case1 first second rest yields ih =>
      rcases Instruction.yieldsTo_iff.1 yields with ⟨outside, clifford, commute⟩
      have exchange := Exchange.here rest outside clifford commute
      have onward := ((sweepCliffords_exchanges rest).later first).later second
      rw [sweepCliffords, sweepOnce_of_yieldsTo yields, exchange.misplaced_eq]
      exact Nat.lt_succ_of_le onward.misplaced_le
  | case2 first second rest stays ih =>
      rw [sweepOnce_of_not_yieldsTo stays] at moved
      rw [sweepCliffords, sweepOnce_of_not_yieldsTo stays]
      have fewer := ih moved
      have counted := (sweepCliffords_exchanges (second :: rest)).perm.countP_eq
        Instruction.isClifford
      rw [misplaced_cons first, misplaced_cons first, counted]
      omega
  | case3 instructions short =>
      rw [sweepOnce] at moved
      · cases moved
      · exact short

/-- A sweep says that nothing moved exactly if nothing could. -/
theorem sweepOnce_snd_eq_false_iff : (sweepOnce instructions).2 = false ↔ AtRest instructions := by
  induction instructions using sweepOnce.induct with
  | case1 first second rest yields ih =>
      rw [AtRest, List.isChain_cons_cons, ← Instruction.yieldsTo_iff, sweepOnce_of_yieldsTo yields]
      simp [yields]
  | case2 first second rest stays ih =>
      rw [AtRest, List.isChain_cons_cons, ← Instruction.yieldsTo_iff,
        sweepOnce_of_not_yieldsTo stays]
      exact ih.trans (and_iff_right stays).symm
  | case3 instructions short =>
      match instructions with
      | [] => simp [sweepOnce, AtRest]
      | [only] => simp [sweepOnce, AtRest]
      | first :: second :: rest => exact absurd rfl (short first second rest)

theorem sweepCliffords_of_atRest (atRest : AtRest instructions) :
    sweepCliffords instructions = instructions := by
  induction instructions using sweepOnce.induct with
  | case1 first second rest yields ih =>
      exact absurd (Instruction.yieldsTo_iff.1 yields) (List.isChain_cons_cons.1 atRest).1
  | case2 first second rest stays ih =>
      rw [sweepCliffords, sweepOnce_of_not_yieldsTo stays, ih (List.isChain_cons_cons.1 atRest).2]
  | case3 instructions short =>
      rw [sweepCliffords, sweepOnce]
      exact short

theorem sweepUpTo_of_moved (moved : (sweepOnce instructions).2) (sweeps : ℕ) :
    sweepUpTo (sweeps + 1) instructions = sweepUpTo sweeps (sweepCliffords instructions) := by
  have swept : sweepOnce instructions = (sweepCliffords instructions, true) := Prod.ext rfl moved
  rw [sweepUpTo, swept]

theorem sweepUpTo_of_atRest (atRest : AtRest instructions) (sweeps : ℕ) :
    sweepUpTo sweeps instructions = instructions := by
  have swept : sweepOnce instructions = (instructions, false) :=
    Prod.ext (sweepCliffords_of_atRest atRest) (sweepOnce_snd_eq_false_iff.2 atRest)
  cases sweeps with
  | zero => rfl
  | succ sweeps => rw [sweepUpTo, swept]

/--
Sweeps come to rest after at most as many of them as there are misplaced pairs, and then it does
not matter how many more are allowed.
-/
theorem exists_sweeps (instructions : List (Instruction α)) :
    ∃ sweeps ≤ misplaced instructions, AtRest (sweepCliffords^[sweeps] instructions) ∧
      ∀ more, sweepUpTo (sweeps + more) instructions = sweepCliffords^[sweeps] instructions := by
  induction count : misplaced instructions using Nat.strong_induction_on
    generalizing instructions with
  | _ count ih =>
      subst count
      by_cases moved : (sweepOnce instructions).2
      · rcases ih _ (misplaced_sweepCliffords_lt moved) (sweepCliffords instructions) rfl with
          ⟨sweeps, few, atRest, enough⟩
        refine ⟨sweeps + 1, few.trans_lt (misplaced_sweepCliffords_lt moved), atRest, ?_⟩
        intro more
        rw [Nat.add_right_comm, sweepUpTo_of_moved moved, enough more]
        rfl
      · have atRest := sweepOnce_snd_eq_false_iff.1 (by simpa using moved)
        exact ⟨0, Nat.zero_le _, atRest, fun more => sweepUpTo_of_atRest atRest _⟩

theorem sweepCliffords_iterate_exchanges (sweeps : ℕ) (instructions : List (Instruction α)) :
    Exchanges instructions (sweepCliffords^[sweeps] instructions) := by
  induction sweeps with
  | zero => exact .refl
  | succ sweeps ih =>
      rw [Function.iterate_succ_apply']
      exact ih.trans (sweepCliffords_exchanges _)

end Sweep

/--
The result of the sweeps is made by exchanges alone and allows no further one.  It is reached by
fewer sweeps than are allowed, with what is not a gate in its place and with each of the two kinds
of gates in its order.
-/
theorem cliffordsFirst_comes_to_rest (instructions : List (Instruction α)) :
    let rested := cliffordsFirst instructions
    Exchanges instructions rested ∧ rested.Perm instructions ∧
    AtRest rested ∧ sweepCliffords rested = rested ∧ cliffordsFirst rested = rested ∧
    (∃ sweeps ≤ instructions.length * instructions.length,
      rested = sweepCliffords^[sweeps] instructions ∧
      ∀ more, sweepUpTo (sweeps + more) instructions = rested) ∧
    (∀ index, fixtureAt index rested = fixtureAt index instructions) ∧
    rested.filter Instruction.isClifford = instructions.filter Instruction.isClifford ∧
    rested.filter Instruction.isNonClifford = instructions.filter Instruction.isNonClifford := by
  intro rested
  rcases exists_sweeps instructions with ⟨sweeps, few, atRest, enough⟩
  have bound := few.trans (misplaced_le instructions)
  have rested_eq : rested = sweepCliffords^[sweeps] instructions := by
    rcases Nat.exists_eq_add_of_le (bound.trans (Nat.le_add_right _ 1)) with ⟨more, allowed_eq⟩
    change sweepUpTo (instructions.length * instructions.length + 1) instructions = _
    rw [allowed_eq, enough more]
  rw [← rested_eq] at atRest enough
  have exchanges : Exchanges instructions rested := by
    rw [rested_eq]
    exact sweepCliffords_iterate_exchanges sweeps instructions
  refine ⟨exchanges, exchanges.perm, atRest, sweepCliffords_of_atRest atRest,
    sweepUpTo_of_atRest atRest _, ⟨sweeps, bound, rested_eq, enough⟩, ?_, ?_, ?_⟩
  · intro index
    exact exchanges.view_eq (fixtureAt index) fun exchange => exchange.fixtureAt_eq index
  · exact exchanges.view_eq _ Exchange.filter_isClifford_eq
  · exact exchanges.view_eq _ Exchange.filter_isNonClifford_eq

end Peephole

end Anyonic
