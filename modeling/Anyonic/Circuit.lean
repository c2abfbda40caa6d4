import Anyonic.Amplitude
import Anyonic.Circuit.Depth

/-!
# Circuits

A list of instructions over a fixed number of qubits, with the global phase that whatever built
the circuit has accumulated.
-/

namespace Anyonic

/-- The number of T gates and their inverses. -/
def tCount {α : Type} (instructions : List (Instruction α)) : Nat :=
  instructions.countP Instruction.isT

/-- A circuit. -/
structure Circuit (α : Type) where
  width : Nat
  instructions : List (Instruction α)
  totalPhase : Amplitude α
deriving BEq

namespace Circuit

variable {α : Type} [Scalar α]

/-- The circuit of a list of instructions, each of which has to be valid in it. -/
def ofInstructions (width : Nat) (instructions : List (Instruction α)) :
    Except CircuitError (Circuit α) := do
  instructions.forM (·.validate width)
  return ⟨width, instructions, .one⟩

/-- The number of instructions. -/
def length (circuit : Circuit α) : Nat := circuit.instructions.length

/-- The depth of the circuit. -/
def depth (circuit : Circuit α) : Nat := dependencyDepth circuit.instructions circuit.width

/-- The number of T gates and their inverses. -/
def tCount (circuit : Circuit α) : Nat := Anyonic.tCount circuit.instructions

/-- The circuit, one instruction a line, under a line with its figures. -/
def text [Numeral α] (circuit : Circuit α) : String :=
  s!"GateSequence: {circuit.width} qubits, {circuit.length} gates, depth {circuit.depth}, "
    ++ s!"T-count {circuit.tCount}\n"
    ++ String.join (circuit.instructions.map fun instruction => s!"  {instruction.text}\n")

end Circuit

end Anyonic
