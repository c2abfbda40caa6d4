import Anyonic.Instruction

/-!
# Merging of neighbouring gates

Two neighbouring phase gates on the same qubit are one phase gate, and two rotations about the
same axis are one rotation.  A merged gate is tried again on the gate before it.
-/

namespace Anyonic

variable {α : Type} [Scalar α]

/-- The product of two gates, up to a global phase. -/
inductive Product (α : Type) where
  /-- The gates undo each other. -/
  | nothing
  /-- The gates act as one. -/
  | one (gate : Gate α)

namespace Product

/-- A rotation, or nothing if its angle is a multiple of a full turn. -/
def rotation (make : α → Gate α) (angle : α) : Product α :=
  if Scalar.abs (Scalar.normalizeAngle angle) < Gate.angleTolerance then .nothing
  else .one (make angle)

/-- The product of two gates on the same qubit, where it is a gate. -/
def ofGates? : (first second : Gate α) → Option (Product α)
  | .t, .t => some (.one .s)
  | .tdg, .tdg => some (.one .sdg)
  | .s, .s | .sdg, .sdg => some (.one .z)
  | .z, .z => some .nothing
  | .rx first, .rx second => some (rotation .rx (first + second))
  | .ry first, .ry second => some (rotation .ry (first + second))
  | .rz first, .rz second => some (rotation .rz (first + second))
  | .p first, .p second => some (rotation .p (first + second))
  | _, _ => none

/-- The product of two instructions, if they are single-qubit gates on the same operands. -/
def ofInstructions? (first second : Instruction α) : Option (Product α) :=
  if first.qubits == second.qubits then
    match first.singleQubitGate?, second.singleQubitGate? with
    | some gate, some other => ofGates? gate other
    | _, _ => none
  else none

end Product

namespace Peephole

/-- Put an instruction on the stack of kept ones, merged with the top as often as possible. -/
def pushMerged : List (Instruction α) → Instruction α → List (Instruction α)
  | [], instruction => [instruction]
  | top :: kept, instruction =>
      match Product.ofInstructions? top instruction with
      | some .nothing => kept
      | some (.one gate) => pushMerged kept (.onQubits gate instruction.qubits)
      | none => instruction :: top :: kept

/-- Merge neighbouring single-qubit gates. -/
def mergeGates (instructions : List (Instruction α)) : List (Instruction α) :=
  (instructions.foldl pushMerged []).reverse

end Peephole

end Anyonic
