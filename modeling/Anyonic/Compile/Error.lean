import Anyonic.Circuit.Error
import Anyonic.Numeral

/-!
# Compilation failures
-/

namespace Anyonic

/-- Why a compilation failed. -/
inductive CompileError (α : Type) where
  /-- The circuit or the braid is malformed. -/
  | circuit (error : CircuitError)
  /-- The request to the compiler is invalid. -/
  | validation (reason : String)
  /-- The operation has no meaning for braids. -/
  | logic (gate reason : String)
  /-- The best approximation found is not good enough. -/
  | computation (gate : String) (error tolerance : α)
  /-- No braid realises the gate without error. -/
  | exactMappingUnavailable (gate : String)
  /-- The nearest angle that a braid realises is too far away. -/
  | toleranceExceeded (gate : String) (residual tolerance : α)
  /-- There is no rule for the gate, or none is left after lowering. -/
  | unsupportedGate (gate : String) (lowered : Bool)
  /-- Lowering did not come to an end. -/
  | loweringDiverged (passes : Nat)
deriving Repr, BEq

namespace CompileError

variable {α : Type}

/-- Coarse classes of failures. -/
inductive Category where
  | validation
  | logic
  | computation
  | exactMappingUnavailable
deriving Repr, DecidableEq

/-- The class of a failure. -/
def category : CompileError α → Category
  | .circuit _ | .validation _ => .validation
  | .logic _ _ | .unsupportedGate _ _ | .loweringDiverged _ => .logic
  | .computation _ _ _ | .toleranceExceeded _ _ _ => .computation
  | .exactMappingUnavailable _ => .exactMappingUnavailable

/-- The text of a failure. -/
def message [Numeral α] : CompileError α → String
  | .circuit error => "IR error: " ++ error.message
  | .validation reason => "Invalid input: " ++ reason
  | .logic gate reason => s!"Gate '{gate}' is not supported: {reason}"
  | .computation gate error tolerance =>
      s!"Approximation of '{gate}' has error {Numeral.scientific 3 error}, "
        ++ s!"above tolerance {Numeral.scientific 3 tolerance}"
  | .exactMappingUnavailable gate => s!"No exact braid for gate '{gate}'"
  | .toleranceExceeded gate residual tolerance =>
      s!"Rounding '{gate}' to the braid lattice leaves residual {Numeral.scientific 3 residual}, "
        ++ s!"above tolerance {Numeral.scientific 3 tolerance}"
  | .unsupportedGate gate true => s!"Gate '{gate}' is not supported even after being transpiled"
  | .unsupportedGate gate false => s!"Gate '{gate}' is not natively supported"
  | .loweringDiverged passes => s!"Transpilation did not converge after {passes} passes"

/-- The failure of an operation that cannot be undone and so is no braid. -/
def resetRejected : CompileError α :=
  .logic "reset" "reset is non-unitary and has no braid realization"

/-- Failures of circuits are failures of compilation. -/
def ofCircuit {β : Type} : Except CircuitError β → Except (CompileError α) β
  | .ok value => .ok value
  | .error error => .error (.circuit error)

end CompileError

end Anyonic
