import Anyonic.Instruction

/-!
# Cancellation of neighbouring inverses

A gate directly followed by its inverse on the same qubits does nothing, and neither does an
identity gate.  One walk over the list removes both, with a stack of the instructions kept so
far, so that pairs that become neighbours by a removal cancel as well.
-/

namespace Anyonic

variable {α : Type} [Scalar α]

namespace Gate

/-- Whether a gate does the same on two lists of qubits, given its symmetry in the operands. -/
def sameOperands (gate : Gate α) (first second : List Nat) : Bool :=
  first.length == second.length &&
    match gate, first, second with
    | .cz, _, _ | .swap, _, _ | .cp _, _, _ | .mcz _, _, _ => first.all second.contains
    | .ccx, [control, other, target], [control', other', target'] =>
        target == target' &&
          ((control == control' && other == other') || (control == other' && other == control'))
    | .ccx, _, _ => false
    | _, _, _ => first == second

end Gate

namespace Instruction

/-- Whether the instruction is an identity gate. -/
def isIdentity (instruction : Instruction α) : Bool :=
  match instruction.operation with
  | .apply .identity => true
  | _ => false

/-- Whether `second` undoes `first`. -/
def undoneBy (first second : Instruction α) : Bool :=
  match first.gate?, second.gate? with
  | some gate, some other =>
      gate.inverse.approxEq other && gate.sameOperands first.qubits second.qubits
  | _, _ => false

end Instruction

namespace Peephole

/-- Put an instruction on the stack of kept ones, unless it is an identity or undoes the top. -/
def pushUnlessUndone : List (Instruction α) → Instruction α → List (Instruction α)
  | [], instruction => if instruction.isIdentity then [] else [instruction]
  | top :: kept, instruction =>
      if instruction.isIdentity then top :: kept
      else if top.undoneBy instruction then kept
      else instruction :: top :: kept

/-- Remove identities and neighbouring inverse pairs. -/
def cancelInverses (instructions : List (Instruction α)) : List (Instruction α) :=
  (instructions.foldl pushUnlessUndone []).reverse

end Peephole

end Anyonic
