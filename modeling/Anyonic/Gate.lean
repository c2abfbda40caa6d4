import Anyonic.Numeral
import Anyonic.Scalar

/-!
# Gates

The gates a circuit can be written in, with the properties that the optimiser and the compiler
ask of them.
-/

namespace Anyonic

/-- Numbers of 32 bits wrap around here. -/
def wrapLimit : Nat := 4294967296

/-- The next number of 32 bits, which is zero after the largest. -/
def wrappingSucc (number : Nat) : Nat := if number + 1 < wrapLimit then number + 1 else 0

/-- A gate, without the qubits it acts on. -/
inductive Gate (α : Type) where
  | identity
  | h
  | x
  | y
  | z
  | s
  | sdg
  | t
  | tdg
  | rx (angle : α)
  | ry (angle : α)
  | rz (angle : α)
  | p (angle : α)
  | cx
  | cz
  | swap
  | cp (angle : α)
  | ccx
  | mcz (controls : Nat)
deriving BEq

namespace Gate

variable {α : Type}

/-- The name under which a gate is written. -/
def name : Gate α → String
  | .identity => "id"
  | .h => "h"
  | .x => "x"
  | .y => "y"
  | .z => "z"
  | .s => "s"
  | .sdg => "sdg"
  | .t => "t"
  | .tdg => "tdg"
  | .rx _ => "rx"
  | .ry _ => "ry"
  | .rz _ => "rz"
  | .p _ => "p"
  | .cx => "cx"
  | .cz => "cz"
  | .swap => "swap"
  | .cp _ => "cp"
  | .ccx => "ccx"
  | .mcz _ => "mcz"

/-- The number of qubits a gate acts on. -/
def arity : Gate α → Nat
  | .cx | .cz | .swap | .cp _ => 2
  | .ccx => 3
  | .mcz controls => wrappingSucc controls
  | _ => 1

/-- The angle of a parametrised gate. -/
def angle? : Gate α → Option α
  | .rx angle | .ry angle | .rz angle | .p angle | .cp angle => some angle
  | _ => none

/-- The text of a gate: its name, with the angle or the number of controls. -/
def text [Numeral α] (gate : Gate α) : String :=
  match gate with
  | .mcz controls => s!"mcz[{controls}]"
  | _ =>
      match gate.angle? with
      | some angle => s!"{gate.name}({Numeral.fixed 6 angle})"
      | none => gate.name

/-- A gate of the Clifford group; rotations are left out whatever their angle. -/
def isClifford : Gate α → Bool
  | .identity | .h | .x | .y | .z | .s | .sdg | .cx | .cz | .swap => true
  | _ => false

/-- A gate that counts toward the T-count. -/
def isT : Gate α → Bool
  | .t | .tdg => true
  | _ => false

/-- A gate that undoes itself. -/
def isSelfInverse : Gate α → Bool
  | .identity | .h | .x | .y | .z | .cx | .cz | .swap | .ccx | .mcz _ => true
  | _ => false

variable [Scalar α]

/-- For a diagonal single-qubit gate, the phase of its second entry relative to the first. -/
def diagonalPhase? : Gate α → Option α
  | .identity => some 0.0
  | .z => some Scalar.pi
  | .s => some (Scalar.pi / 2.0)
  | .sdg => some (-Scalar.pi / 2.0)
  | .t => some (Scalar.pi / 4.0)
  | .tdg => some (-Scalar.pi / 4.0)
  | .rz angle | .p angle => some angle
  | _ => none

/-- A gate that is diagonal in the computational basis. -/
def isDiagonal : Gate α → Bool
  | .cz | .cp _ | .mcz _ => true
  | gate => gate.diagonalPhase?.isSome

/-- The gate that undoes this one on the same qubits. -/
def inverse : Gate α → Gate α
  | .s => .sdg
  | .sdg => .s
  | .t => .tdg
  | .tdg => .t
  | .rx angle => .rx (-angle)
  | .ry angle => .ry (-angle)
  | .rz angle => .rz (-angle)
  | .p angle => .p (-angle)
  | .cp angle => .cp (-angle)
  | gate => gate

/-- Angles closer than this count as equal. -/
def angleTolerance : α := 1e-10

/-- Whether two angles are equal up to rounding. -/
def sameAngle (first second : α) : Bool := Scalar.abs (first - second) < angleTolerance

/-- Whether two gates are equal up to rounding of their angles. -/
def approxEq : Gate α → Gate α → Bool
  | .rx first, .rx second
  | .ry first, .ry second
  | .rz first, .rz second
  | .p first, .p second
  | .cp first, .cp second => sameAngle first second
  | first, second => first == second

end Gate

end Anyonic
