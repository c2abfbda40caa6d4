import Anyonic.Gate
import Anyonic.QubitMatrix

/-!
# Matrices of single-qubit gates
-/

namespace Anyonic

namespace QubitMatrix

variable {α : Type} [Scalar α]

/-- The Hadamard matrix. -/
def hadamard : QubitMatrix α :=
  let entry : Amplitude α := .ofReal (1.0 / Scalar.sqrt 2.0)
  ⟨entry, entry, entry, -entry⟩

/-- The Pauli matrix that exchanges the basis states. -/
def pauliX : QubitMatrix α := ⟨.zero, .one, .one, .zero⟩

/-- The Pauli matrix that exchanges the basis states with opposite imaginary phases. -/
def pauliY : QubitMatrix α := ⟨.zero, ⟨0.0, -1.0⟩, ⟨0.0, 1.0⟩, .zero⟩

/-- The rotation about the first axis. -/
def rotationX (angle : α) : QubitMatrix α :=
  let stay : Amplitude α := .ofReal (Scalar.cos (angle / 2.0))
  let swap : Amplitude α := ⟨0.0, -Scalar.sin (angle / 2.0)⟩
  ⟨stay, swap, swap, stay⟩

/-- The rotation about the second axis. -/
def rotationY (angle : α) : QubitMatrix α :=
  let cosine := Scalar.cos (angle / 2.0)
  let sine := Scalar.sin (angle / 2.0)
  ⟨.ofReal cosine, .ofReal (-sine), .ofReal sine, .ofReal cosine⟩

/-- The rotation about the third axis. -/
def rotationZ (angle : α) : QubitMatrix α :=
  diagonal (.phase (-angle / 2.0)) (.phase (angle / 2.0))

/-- The matrix that gives the second basis state a phase. -/
def phaseShift (angle : α) : QubitMatrix α := diagonal .one (.phase angle)

end QubitMatrix

/-- The matrix of a single-qubit gate. -/
def Gate.matrix? {α : Type} [Scalar α] : Gate α → Option (QubitMatrix α)
  | .identity => some .identity
  | .h => some .hadamard
  | .x => some .pauliX
  | .y => some .pauliY
  | .z => some (.phaseShift Scalar.pi)
  | .s => some (.phaseShift (Scalar.pi / 2.0))
  | .sdg => some (.phaseShift (-Scalar.pi / 2.0))
  | .t => some (.phaseShift (Scalar.pi / 4.0))
  | .tdg => some (.phaseShift (-Scalar.pi / 4.0))
  | .rx angle => some (.rotationX angle)
  | .ry angle => some (.rotationY angle)
  | .rz angle => some (.rotationZ angle)
  | .p angle => some (.phaseShift angle)
  | .cx | .cz | .swap | .cp _ | .ccx | .mcz _ => none

end Anyonic
