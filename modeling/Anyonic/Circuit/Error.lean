/-!
# Malformed circuits and braids

The ways in which an instruction, a circuit or a braid word can be malformed.  None of them
depends on the anyon model.
-/

namespace Anyonic

/-- Why an instruction, circuit or braid word is malformed. -/
inductive CircuitError where
  /-- The instruction takes a different number of qubits. -/
  | operandCount (gate : String) (expected got : Nat)
  /-- A qubit occurs twice among the operands. -/
  | duplicateQubit (qubit : Nat) (gate : Option String)
  /-- A qubit lies beyond the width of the circuit. -/
  | qubitOutOfRange (qubit width : Nat) (gate : Option String)
  /-- A multi-controlled gate has no controls. -/
  | missingControls (gate : String)
  /-- A braid has fewer than two strands. -/
  | tooFewStrands (strands : Nat)
  /-- A generator crosses strands that the braid does not have. -/
  | generatorOutOfRange (index strands : Nat)
deriving Repr, DecidableEq

namespace CircuitError

/-- The gate in whose operands an error was found, as a suffix of the message. -/
def context : Option String → String
  | some gate => " (gate: " ++ gate ++ ")"
  | none => ""

/-- The text of an error. -/
def message : CircuitError → String
  | .operandCount gate expected got => s!"Gate '{gate}' requires {expected} qubits, got {got}"
  | .duplicateQubit qubit gate => s!"Duplicate qubit q{qubit} in operation{context gate}"
  | .qubitOutOfRange qubit width gate =>
      s!"Qubit q{qubit} out of range for a {width}-qubit sequence{context gate}"
  | .missingControls gate => s!"Gate '{gate}' needs at least one control qubit"
  | .tooFewStrands strands => s!"Braid word needs at least 2 strands, got {strands}"
  | .generatorOutOfRange index strands =>
      s!"Generator index {index} out of range for {strands} strands (max {strands - 2})"

end CircuitError

end Anyonic
