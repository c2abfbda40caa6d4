import Anyonic.Circuit.Error
import Anyonic.Gate

/-!
# Instructions

One step of a circuit: an operation together with the qubits it acts on.  Nothing is checked when
an instruction is built; `Instruction.validate` states what makes it well formed in a circuit of
a given width.
-/

namespace Anyonic

/-- What an instruction does to its qubits. -/
inductive Operation (α : Type) where
  | apply (gate : Gate α)
  | measure
  | barrier
  | reset
deriving BEq

/-- One step of a circuit. -/
structure Instruction (α : Type) where
  operation : Operation α
  qubits : List Nat
deriving BEq

namespace Operation

variable {α : Type}

/-- The name under which an operation is written. -/
def name : Operation α → String
  | .apply gate => gate.name
  | .measure => "measure"
  | .barrier => "barrier"
  | .reset => "reset"

/-- The text of an operation: that of the gate, or its name. -/
def text [Numeral α] : Operation α → String
  | .apply gate => gate.text
  | operation => operation.name

end Operation

/-- Qubits as they are written behind the name of an operation. -/
def operandText (qubits : List Nat) : String :=
  match qubits with
  | [] => ""
  | _ => " " ++ ", ".intercalate (qubits.map fun qubit => s!"q{qubit}")

namespace Instruction

variable {α : Type}

/-- A gate on a list of qubits. -/
def onQubits (gate : Gate α) (qubits : List Nat) : Instruction α := ⟨.apply gate, qubits⟩

/-- A gate on one qubit. -/
def single (gate : Gate α) (qubit : Nat) : Instruction α := onQubits gate [qubit]

/-- A gate on two qubits. -/
def double (gate : Gate α) (first second : Nat) : Instruction α := onQubits gate [first, second]

/-- The name of the operation. -/
def name (instruction : Instruction α) : String := instruction.operation.name

/-- The operation followed by its qubits. -/
def text [Numeral α] (instruction : Instruction α) : String :=
  instruction.operation.text ++ operandText instruction.qubits

/-- The gate, if the operation is one. -/
def gate? (instruction : Instruction α) : Option (Gate α) :=
  match instruction.operation with
  | .apply gate => some gate
  | _ => none

/-- Whether the operation is a measurement. -/
def isMeasure (instruction : Instruction α) : Bool :=
  match instruction.operation with
  | .measure => true
  | _ => false

/-- Whether the operation is a reset. -/
def isReset (instruction : Instruction α) : Bool :=
  match instruction.operation with
  | .reset => true
  | _ => false

/-- Whether the operation is a barrier. -/
def isBarrier (instruction : Instruction α) : Bool :=
  match instruction.operation with
  | .barrier => true
  | _ => false

/-- Whether the operation is a T gate or its inverse. -/
def isT (instruction : Instruction α) : Bool := instruction.gate?.any Gate.isT

/-- A barrier without operands stands between all qubits. -/
def spansAll (instruction : Instruction α) : Bool :=
  instruction.isBarrier && instruction.qubits.isEmpty

/-- The gate, if it acts on one qubit. -/
def singleQubitGate? (instruction : Instruction α) : Option (Gate α) :=
  instruction.gate?.filter fun gate => gate.arity == 1

/-- Whether an instruction constrains what happens on a qubit. -/
def touches (instruction : Instruction α) (qubit : Nat) : Bool :=
  instruction.qubits.contains qubit || instruction.spansAll

/-- Whether two instructions share a qubit. -/
def overlaps (first second : Instruction α) : Bool :=
  first.spansAll || second.spansAll || first.qubits.any second.qubits.contains

/-- Check the number of operands. -/
def validateArity (instruction : Instruction α) : Except CircuitError Unit :=
  let got := instruction.qubits.length
  match instruction.operation with
  | .apply (.mcz 0) => .error (.missingControls instruction.name)
  | .apply gate =>
      if got == gate.arity then .ok () else .error (.operandCount gate.name gate.arity got)
  | .barrier => .ok ()
  | .measure | .reset =>
      if got == 1 then .ok () else .error (.operandCount instruction.name 1 got)

/-- Check that operands lie below `width` and do not repeat, `earlier` being those before them. -/
def validateOperands (gate : String) (width : Nat) : (earlier rest : List Nat) →
    Except CircuitError Unit
  | _, [] => .ok ()
  | earlier, qubit :: rest =>
      if width ≤ qubit then .error (.qubitOutOfRange qubit width (some gate))
      else if earlier.contains qubit then .error (.duplicateQubit qubit (some gate))
      else validateOperands gate width (qubit :: earlier) rest

/-- Check an instruction of a circuit of the given width: arity, range and distinctness. -/
def validate (instruction : Instruction α) (width : Nat) : Except CircuitError Unit := do
  instruction.validateArity
  validateOperands instruction.name width [] instruction.qubits

/-- The instruction that undoes this one; what is not a gate stays as it is. -/
def inverse [Scalar α] (instruction : Instruction α) : Instruction α :=
  match instruction.operation with
  | .apply gate => onQubits gate.inverse instruction.qubits
  | _ => instruction

end Instruction

end Anyonic
