import Anyonic.Proofs.Compile.Fragment
import Anyonic.Proofs.Double.Laws
import Anyonic.Proofs.Peephole.Levels
import Anyonic.Proofs.Scalar.Laws
import Anyonic.Reading

/-!
# Braids that undo themselves

A braid followed by its inverse is read as a circuit without gates.  Exchanges are read as phase
gates, all of which commute, so that only two things matter about them: on which qubit they act and
which of them undo each other.  Each gate therefore gets a mark, and two gates undo each other
exactly if their marks are opposite.  The stack of neighbouring inverses then reduces marks as
words of a free group are reduced, and the search for partners among commuting gates takes opposite
marks out of a list in which every mark has its opposite.
-/

namespace Anyonic

namespace Marks

variable {Mark : Type} [DecidableEq Mark] {opposite : Mark → Mark}

/-- Put a mark on a stack, where it cancels with its opposite. -/
def push (opposite : Mark → Mark) : List Mark → Mark → List Mark
  | [], mark => [mark]
  | top :: rest, mark => if mark = opposite top then rest else mark :: top :: rest

/-- No mark of a stack lies on its opposite. -/
def Reduced (opposite : Mark → Mark) (stack : List Mark) : Prop :=
  stack.IsChain fun upper lower => upper ≠ opposite lower

theorem push_of_eq {mark top : Mark} (cancels : mark = opposite top) (rest : List Mark) :
    push opposite (top :: rest) mark = rest :=
  if_pos cancels

theorem push_of_ne {mark top : Mark} (differs : mark ≠ opposite top) (rest : List Mark) :
    push opposite (top :: rest) mark = mark :: top :: rest :=
  if_neg differs

theorem reduced_push {stack : List Mark} (reduced : Reduced opposite stack) (mark : Mark) :
    Reduced opposite (push opposite stack mark) := by
  cases stack with
  | nil => exact .singleton mark
  | cons top rest =>
      by_cases cancels : mark = opposite top
      · rw [push_of_eq cancels]
        exact reduced.tail
      · rw [push_of_ne cancels]
        exact .cons_cons cancels reduced

theorem push_push_opposite (involutive : opposite.Involutive) {stack : List Mark}
    (reduced : Reduced opposite stack) (mark : Mark) :
    push opposite (push opposite stack mark) (opposite mark) = stack := by
  cases stack with
  | nil => exact push_of_eq rfl []
  | cons top rest =>
      by_cases cancels : mark = opposite top
      · -- the top comes back, and it does not cancel with what lies below it
        subst cancels
        rw [push_of_eq rfl, involutive]
        cases rest with
        | nil => rfl
        | cons next rest => exact push_of_ne (List.isChain_cons_cons.1 reduced).1 rest
      · rw [push_of_ne cancels]
        exact push_of_eq rfl _

/-- A word and its inverse leave a stack as it was. -/
theorem foldl_push_append (involutive : opposite.Involutive) (word : List Mark)
    {stack : List Mark} (reduced : Reduced opposite stack) :
    (word ++ word.reverse.map opposite).foldl (push opposite) stack = stack := by
  induction word generalizing stack with
  | nil => rfl
  | cons mark word ih =>
      have inner := ih (reduced_push reduced mark)
      rw [List.reverse_cons, List.map_append, ← List.append_assoc, List.foldl_append,
        List.cons_append, List.foldl_cons, inner]
      exact push_push_opposite involutive reduced mark

/-- Every mark comes with its opposite. -/
def Balanced (opposite : Mark → Mark) (marks : List Mark) : Prop :=
  ∃ half, marks.Perm (half ++ half.map opposite)

omit [DecidableEq Mark] in
theorem balanced_append (word : List Mark) :
    Balanced opposite (word ++ word.reverse.map opposite) := by
  refine ⟨word, List.Perm.append_left word ?_⟩
  exact (List.reverse_perm word).map opposite

/-- The first mark of a balanced list can be taken out together with its opposite. -/
theorem Balanced.erase_opposite (involutive : opposite.Involutive) {mark : Mark}
    {marks : List Mark} (balanced : Balanced opposite (mark :: marks)) :
    opposite mark ∈ marks ∧ Balanced opposite (marks.erase (opposite mark)) := by
  rcases balanced with ⟨half, perm⟩
  have paired : ∃ rest, (half ++ half.map opposite).Perm
      (mark :: opposite mark :: (rest ++ rest.map opposite)) := by
    have pair (member : Mark) (listed : member ∈ half) : (half ++ half.map opposite).Perm
        (member :: opposite member :: (half.erase member ++ (half.erase member).map opposite)) := by
      have split := List.perm_cons_erase listed
      refine (split.append (split.map opposite)).trans ?_
      exact List.Perm.cons member List.perm_middle
    rcases List.mem_append.1 (perm.subset List.mem_cons_self) with listed | listed
    · exact ⟨_, pair mark listed⟩
    · rcases List.mem_map.1 listed with ⟨member, inHalf, rfl⟩
      refine ⟨half.erase member, ?_⟩
      rw [involutive]
      exact (pair member inHalf).trans (List.Perm.swap _ _ _)
  rcases paired with ⟨rest, split⟩
  have remaining : marks.Perm (opposite mark :: (rest ++ rest.map opposite)) :=
    (perm.trans split).cons_inv
  refine ⟨remaining.symm.subset List.mem_cons_self, rest, ?_⟩
  have erased := remaining.erase (opposite mark)
  rwa [List.erase_cons_head] at erased

end Marks

variable {α : Type} [Scalar α]

/--
A reading of exchanges as instructions that commute, with marks that tell which of them undo each
other.
-/
structure MarkedReading (instruction : Generator → Instruction α) (Mark : Type) where
  mark : Generator → Mark
  opposite : Mark → Mark
  involutive : opposite.Involutive
  mark_inverse : ∀ generator, mark generator.inverse = opposite (mark generator)
  undoneBy_iff : ∀ first second,
    (instruction first).undoneBy (instruction second) ↔ mark second = opposite (mark first)
  commutes : ∀ first second, (instruction first).commutes (instruction second)
  notIdentity : ∀ generator, (instruction generator).isIdentity = false

namespace MarkedReading

open Peephole

variable {instruction : Generator → Instruction α} {Mark : Type} [DecidableEq Mark]
  (reading : MarkedReading instruction Mark)
include reading

omit [DecidableEq Mark] in
theorem marks_append_inverse (word : List Generator) :
    (word ++ inverseGenerators word).map reading.mark =
      word.map reading.mark ++ (word.map reading.mark).reverse.map reading.opposite := by
  simp [inverseGenerators, reading.mark_inverse]

theorem exists_pushUnlessUndone (stack : List Generator) (generator : Generator) :
    ∃ kept : List Generator,
      pushUnlessUndone (stack.map instruction) (instruction generator) = kept.map instruction ∧
        kept.map reading.mark =
          Marks.push reading.opposite (stack.map reading.mark) (reading.mark generator) := by
  cases stack with
  | nil =>
      refine ⟨[generator], ?_, rfl⟩
      simp [pushUnlessUndone, reading.notIdentity]
  | cons top rest =>
      have undone := reading.undoneBy_iff top generator
      simp only [List.map_cons, pushUnlessUndone, reading.notIdentity, Bool.false_eq_true, if_false,
        undone, Marks.push]
      split
      · exact ⟨rest, rfl, rfl⟩
      · exact ⟨generator :: top :: rest, rfl, rfl⟩

theorem exists_foldl_pushUnlessUndone (word stack : List Generator) :
    ∃ kept : List Generator,
      (word.map instruction).foldl pushUnlessUndone (stack.map instruction) =
          kept.map instruction ∧
        kept.map reading.mark =
          (word.map reading.mark).foldl (Marks.push reading.opposite) (stack.map reading.mark) := by
  induction word generalizing stack with
  | nil => exact ⟨stack, rfl, rfl⟩
  | cons generator word ih =>
      rcases reading.exists_pushUnlessUndone stack generator with ⟨next, pushed, marks_eq⟩
      rcases ih next with ⟨kept, folded, kept_eq⟩
      refine ⟨kept, ?_, ?_⟩
      · rw [List.map_cons, List.foldl_cons, pushed, folded]
      · rw [List.map_cons, List.foldl_cons, ← marks_eq, kept_eq]

theorem cancelInverses_append_inverse (word : List Generator) :
    cancelInverses ((word ++ inverseGenerators word).map instruction) = [] := by
  rcases reading.exists_foldl_pushUnlessUndone (word ++ inverseGenerators word) [] with
    ⟨kept, folded, marks_eq⟩
  have reduced : Marks.Reduced reading.opposite ([] : List Mark) := .nil
  rw [reading.marks_append_inverse, List.map_nil,
    Marks.foldl_push_append reading.involutive _ reduced, List.map_eq_nil_iff] at marks_eq
  subst marks_eq
  rw [List.map_nil] at folded
  rw [cancelInverses, folded]
  rfl

/-- The partner of an exchange is found behind any others, and nothing else is taken out. -/
theorem exists_removePartner (generator : Generator) (passed rest : List Generator)
    (listed : reading.opposite (reading.mark generator) ∈ rest.map reading.mark) :
    ∃ remaining : List Generator,
      removePartner (instruction generator) (passed.map instruction) (rest.map instruction) =
          some (remaining.map instruction) ∧
        remaining.map reading.mark = passed.reverse.map reading.mark ++
          (rest.map reading.mark).erase (reading.opposite (reading.mark generator)) := by
  induction rest generalizing passed with
  | nil => cases listed
  | cons next rest ih =>
      have undone := reading.undoneBy_iff generator next
      by_cases partner : reading.mark next = reading.opposite (reading.mark generator)
      · refine ⟨passed.reverse ++ rest, ?_, ?_⟩
        · simp [removePartner, undone.2 partner, reading.commutes]
        · simp [partner]
      · have behind : reading.opposite (reading.mark generator) ∈ rest.map reading.mark := by
          rcases List.mem_cons.1 listed with same | behind
          · exact absurd same.symm partner
          · exact behind
        rcases ih (next :: passed) behind with ⟨remaining, found, marks_eq⟩
        refine ⟨remaining, ?_, ?_⟩
        · have kept : (instruction generator).undoneBy (instruction next) = false := by
            rw [Bool.eq_false_iff]
            exact fun undoes => partner (undone.1 undoes)
          rw [List.map_cons] at found
          rw [List.map_cons, removePartner, kept, reading.commutes, found]
          simp
        · rw [marks_eq, List.map_cons, List.erase_cons_tail (by simpa using partner)]
          simp

theorem cancelThroughCommuting_of_balanced {word : List Generator}
    (balanced : Marks.Balanced reading.opposite (word.map reading.mark)) :
    cancelThroughCommuting (word.map instruction) = [] := by
  induction count : word.length using Nat.strong_induction_on generalizing word with
  | _ count ih =>
      cases word with
      | nil => simp [cancelThroughCommuting]
      | cons generator rest =>
          rcases balanced.erase_opposite reading.involutive with ⟨listed, balanced⟩
          rcases reading.exists_removePartner generator [] rest listed with
            ⟨remaining, found, marks_eq⟩
          rw [List.reverse_nil, List.map_nil, List.nil_append] at marks_eq
          have shorter := length_of_removePartner found
          simp only [List.length_map, List.map_nil, List.length_nil] at shorter
          rw [List.map_nil] at found
          rw [List.map_cons, cancelThroughCommuting, found]
          apply ih remaining.length _ _ rfl
          · rw [← count, List.length_cons]
            omega
          · rw [marks_eq]
            exact balanced

/-- A word and its inverse are optimised away at every level that optimises at all. -/
theorem optimize_append_inverse (word : List Generator) {level : ℕ} (optimised : 1 ≤ level) :
    optimize ((word ++ inverseGenerators word).map instruction) level = [] := by
  match level, optimised with
  | 1, _ =>
      rw [optimize_one, reading.cancelInverses_append_inverse]
      rfl
  | level + 2, _ =>
      have cancelled : cancelThroughCommuting ((word ++ inverseGenerators word).map instruction) =
          [] := by
        apply reading.cancelThroughCommuting_of_balanced
        rw [reading.marks_append_inverse]
        exact Marks.balanced_append _
      have untouched : applyTemplatesUntilStable ([] : List (Instruction α)) = [] := by
        simp [applyTemplatesUntilStable, applyTemplates]
      have bounded := length_optimize_two_le
        ((word ++ inverseGenerators word).map instruction)
      rw [cancelled, untouched] at bounded
      have empty := length_optimize_le ([] : List (Instruction α)) 1
      rw [List.length_nil] at empty
      exact List.length_eq_zero_iff.1 (Nat.le_zero.1 (bounded.trans empty))

end MarkedReading

theorem Generator.involutive_inverse : Function.Involutive Generator.inverse := by
  rintro ⟨index, _ | _⟩ <;> rfl

/-- The gates of the two directions of an exchange: phase gates, each of which undoes the other. -/
structure PhasePair (gate : Orientation → Gate α) : Prop where
  diagonal : ∀ orientation, (gate orientation).diagonalPhase?.isSome
  notIdentity : ∀ orientation, gate orientation ≠ .identity
  undone : ∀ orientation, (gate orientation).inverse.approxEq (gate orientation.reversed)
  /-- If one of them undoes itself, the other does. -/
  alike : (gate .clockwise).inverse.approxEq (gate .clockwise) =
    (gate .counterClockwise).inverse.approxEq (gate .counterClockwise)

omit [Scalar α] in
theorem Instruction.isIdentity_single {gate : Gate α} (notIdentity : gate ≠ .identity)
    (qubit : ℕ) : (single gate qubit).isIdentity = false := by
  cases gate <;> simp_all [isIdentity, single, onQubits]

theorem Gate.isDiagonal_of_diagonalPhase? {gate : Gate α} (diagonal : gate.diagonalPhase?.isSome) :
    gate.isDiagonal := by
  unfold isDiagonal
  split <;> simp [diagonal]

theorem Instruction.undoneBy_single_iff {gate other : Gate α}
    (diagonal : gate.diagonalPhase?.isSome) {qubit wire : ℕ} :
    (single gate qubit).undoneBy (single other wire) ↔
      gate.inverse.approxEq other ∧ qubit = wire := by
  have sameOperands : gate.sameOperands [qubit] [wire] = (qubit == wire) := by
    cases gate <;> simp_all [Gate.sameOperands, Gate.diagonalPhase?]
  change (gate.inverse.approxEq other && gate.sameOperands [qubit] [wire]) = true ↔ _
  rw [sameOperands, Bool.and_eq_true, beq_iff_eq]

theorem Instruction.commutes_single {gate other : Gate α} (diagonal : gate.diagonalPhase?.isSome)
    (diagonal' : other.diagonalPhase?.isSome) (qubit wire : ℕ) :
    (single gate qubit).commutes (single other wire) := by
  simp [commutes, gatesCommute, single, onQubits, gate?,
    Gate.isDiagonal_of_diagonalPhase? diagonal, Gate.isDiagonal_of_diagonalPhase? diagonal']

namespace PhasePair

variable {gate : Orientation → Gate α} (pair : PhasePair gate)
include pair

/-- An exchange is undone by its inverse alone, or by every exchange of the same strands. -/
theorem exists_markedReading : ∃ (Mark : Type) (_ : DecidableEq Mark), Nonempty
    (MarkedReading (fun generator => .single (gate generator.orientation) generator.index)
      Mark) := by
  have commutes (first second : Generator) := Instruction.commutes_single
    (pair.diagonal first.orientation) (pair.diagonal second.orientation) first.index second.index
  have notIdentity (generator : Generator) := Instruction.isIdentity_single
    (pair.notIdentity generator.orientation) generator.index
  have undone (first second : Generator) :
      (Instruction.single (gate first.orientation) first.index).undoneBy
          (.single (gate second.orientation) second.index) ↔
        (gate first.orientation).inverse.approxEq (gate second.orientation) ∧
          first.index = second.index :=
    Instruction.undoneBy_single_iff (pair.diagonal first.orientation)
  by_cases self : (gate .clockwise).inverse.approxEq (gate .clockwise)
  · refine ⟨ℕ, inferInstance, ⟨⟨Generator.index, id, fun _ => rfl, fun _ => rfl, ?_, commutes,
      notIdentity⟩⟩⟩
    have always : ∀ first second, (gate first).inverse.approxEq (gate second) := by
      have self' := pair.alike.symm.trans self
      rintro (_ | _) (_ | _)
      · exact self
      · exact pair.undone .clockwise
      · exact pair.undone .counterClockwise
      · exact self'
    intro first second
    rw [undone, and_iff_right (always _ _), id, eq_comm]
  · refine ⟨Generator, inferInstance, ⟨⟨id, Generator.inverse, Generator.involutive_inverse,
      fun _ => rfl, ?_, commutes, notIdentity⟩⟩⟩
    have reversed : ∀ first second, (gate first).inverse.approxEq (gate second) ↔
        second = first.reversed := by
      have self' : ¬(gate .counterClockwise).inverse.approxEq (gate .counterClockwise) := by
        rwa [← pair.alike]
      have undone := pair.undone
      rintro (_ | _) (_ | _)
      · simpa [Orientation.reversed] using self
      · simpa [Orientation.reversed] using undone .clockwise
      · simpa [Orientation.reversed] using undone .counterClockwise
      · simpa [Orientation.reversed] using self'
    rintro ⟨index, first⟩ ⟨wire, second⟩
    rw [undone, reversed]
    simp only [id, Generator.inverse, Generator.mk.injEq]
    rw [and_comm, eq_comm]

end PhasePair

/-- The gates as which the exchanges of an anyon are read. -/
def Anyon.phaseGate (anyon : Anyon) (orientation : Orientation) : Gate α :=
  match anyon, orientation with
  | .ising, .clockwise => .s
  | .ising, .counterClockwise => .sdg
  | .fibonacci, .clockwise => .rz Anyon.fibonacci.model.relativePhase
  | .fibonacci, .counterClockwise => .rz (-Anyon.fibonacci.model.relativePhase)

theorem Generator.gate_eq (anyon : Anyon) (generator : Generator) :
    generator.gate (α := α) anyon =
      .single (anyon.phaseGate generator.orientation) generator.index := by
  rcases generator with ⟨index, orientation⟩
  cases anyon <;> cases orientation <;> rfl

theorem PhasePair.quarterTurns : PhasePair (Anyon.phaseGate (α := α) .ising) where
  diagonal := by rintro (_ | _) <;> rfl
  notIdentity := by rintro (_ | _) ⟨⟩
  undone := by rintro (_ | _) <;> rfl
  alike := rfl

variable [LawfulScalar α]

theorem Anyon.isFinite_relativePhase (anyon : Anyon) :
    Scalar.isFinite (anyon.model.relativePhase : α) := by
  cases anyon <;> exact LawfulScalar.isFinite_normalizeAngle _

theorem PhasePair.rotations : PhasePair (Anyon.phaseGate (α := α) .fibonacci) where
  diagonal := by rintro (_ | _) <;> rfl
  notIdentity := by rintro (_ | _) ⟨⟩
  undone := by
    have finite := Anyon.isFinite_relativePhase (α := α) .fibonacci
    rintro (_ | _)
    · exact LawfulScalar.sameAngle_self (LawfulScalar.isFinite_neg finite)
    · change Gate.sameAngle (- -Anyon.fibonacci.model.relativePhase) _
      rw [LawfulScalar.neg_neg]
      exact LawfulScalar.sameAngle_self finite
  alike := by
    change Gate.sameAngle (-Anyon.fibonacci.model.relativePhase) _ =
      Gate.sameAngle (- -Anyon.fibonacci.model.relativePhase) _
    rw [LawfulScalar.neg_neg, LawfulScalar.sameAngle_comm]

theorem Generator.exists_markedReading (anyon : Anyon) :
    ∃ (Mark : Type) (_ : DecidableEq Mark),
      Nonempty (MarkedReading (Generator.gate (α := α) anyon) Mark) := by
  rw [funext (Generator.gate_eq anyon)]
  cases anyon with
  | ising => exact PhasePair.quarterTurns.exists_markedReading
  | fibonacci => exact PhasePair.rotations.exists_markedReading

/--
A braid and its inverse make up a braid, which is read as a circuit without gates at every level
that optimises.
-/
theorem BraidWord.toCircuit_append_inverse (anyon : Anyon) {strands : ℕ}
    {generators : List Generator} {word : BraidWord}
    (built : ofGenerators strands generators = .ok word) {level : ℕ} (optimised : 1 ≤ level) :
    ∃ joined : BraidWord,
      ofGenerators word.strands (word.generators ++ word.inverse.generators) = .ok joined ∧
        joined.toCircuit (α := α) anyon level =
          .ok ⟨word.width, [], joined.totalPhase anyon⟩ := by
  rcases ofGenerators_eq_ok_iff.1 built with ⟨enough, inRange, rfl⟩
  refine ⟨_, ofGenerators_eq_ok_iff.2 ⟨enough, ?_, rfl⟩, ?_⟩
  · intro generator listed
    simp only [inverse, inverseGenerators, List.mem_append, List.mem_map,
      List.mem_reverse] at listed
    rcases listed with listed | ⟨undone, listed, rfl⟩
    · exact inRange generator listed
    · exact inRange undone listed
  · rcases Generator.exists_markedReading (α := α) anyon with ⟨Mark, _, ⟨reading⟩⟩
    have nothing := reading.optimize_append_inverse generators optimised
    rw [toCircuit, toCircuitWithReport]
    change Prod.fst <$>
      (CompileError.ofCircuit (Circuit.ofInstructions _ (optimize _ level)) >>= _) = _
    rw [inverse, nothing]
    rfl

/-- Exchanges of other strands stand between those that undo each other, inside the word too. -/
theorem BraidWord.toCircuit_append_inverse_interleaved :
    let word : BraidWord := ⟨4, [⟨0, .clockwise⟩, ⟨2, .counterClockwise⟩, ⟨0, .counterClockwise⟩,
      ⟨1, .clockwise⟩, ⟨1, .clockwise⟩]⟩
    ofGenerators 4 word.generators = .ok word ∧
      ∃ joined : BraidWord,
        ofGenerators 4 (word.generators ++ word.inverse.generators) = .ok joined ∧
          joined.toCircuit (α := Float) .fibonacci 2 =
            .ok ⟨3, [], joined.totalPhase .fibonacci⟩ := by
  intro word
  have built : ofGenerators 4 word.generators = .ok word := rfl
  exact ⟨built, toCircuit_append_inverse .fibonacci built one_le_two⟩

end Anyonic
