import Anyonic.Peephole.InverseCancellation

/-!
# Commutation

Which instructions may change places, and the removal of inverse pairs that are separated only by
instructions that commute with both.
-/

namespace Anyonic

variable {α : Type} [Scalar α]

namespace Instruction

/--
Whether a single-qubit gate passes a controlled not: a diagonal gate on its control, or a gate
about the first axis on its target.
-/
def passesControlledNot (single controlledNot : Instruction α) (gate : Gate α) : Bool :=
  gate.arity == 1 &&
    match single.qubits, controlledNot.qubits with
    | [qubit], [control, target] =>
        (qubit == control && gate.isDiagonal) ||
          (qubit == target &&
            match gate with
            | .x | .rx _ => true
            | _ => false)
    | _, _ => false

/-- Whether two gates on overlapping operands commute. -/
def gatesCommute (first second : Instruction α) (gate other : Gate α) : Bool :=
  (gate.isDiagonal && other.isDiagonal) ||
    (gate.approxEq other && first.qubits == second.qubits) ||
    match gate, other with
    | .cx, _ => second.passesControlledNot first other
    | _, .cx => first.passesControlledNot second gate
    | _, _ => false

/-- Whether two instructions are known to commute. -/
def commutes (first second : Instruction α) : Bool :=
  first.isIdentity || second.isIdentity || !first.overlaps second ||
    match first.gate?, second.gate? with
    | some gate, some other => gatesCommute first second gate other
    | _, _ => false

end Instruction

namespace Peephole

/--
The instructions behind a gate without the first one that undoes it, if nothing between them is
in the way; `passed` are those already looked at, latest first.
-/
def removePartner (instruction : Instruction α) :
    (passed rest : List (Instruction α)) → Option (List (Instruction α))
  | _, [] => none
  | passed, next :: rest =>
      if instruction.undoneBy next &&
          passed.all fun between => between.commutes instruction && between.commutes next then
        some (passed.reverse ++ rest)
      else if instruction.commutes next then removePartner instruction (next :: passed) rest
      else none

/-- The list without the partner is shorter by the partner. -/
theorem length_of_removePartner {instruction : Instruction α}
    {passed rest remaining : List (Instruction α)}
    (removed : removePartner instruction passed rest = some remaining) :
    remaining.length + 1 = passed.length + rest.length := by
  induction rest generalizing passed with
  | nil => simp [removePartner] at removed
  | cons next rest ih =>
      unfold removePartner at removed
      split at removed
      · cases removed
        simp
        omega
      · split at removed
        · have := ih removed
          simp only [List.length_cons] at this ⊢
          omega
        · cases removed

/-- Remove inverse pairs through instructions that commute with both. -/
def cancelThroughCommuting : List (Instruction α) → List (Instruction α)
  | [] => []
  | instruction :: rest =>
      match _ : removePartner instruction [] rest with
      | some remaining => cancelThroughCommuting remaining
      | none => instruction :: cancelThroughCommuting rest
termination_by instructions => instructions.length
decreasing_by
  · have := length_of_removePartner ‹_›
    simp only [List.length_cons, List.length_nil] at this ⊢
    omega
  · simp

end Peephole

end Anyonic
