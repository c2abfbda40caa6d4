import Anyonic.Compile.Compiler
import Anyonic.Reading

/-!
# A workbench

A list of instructions and a list of braids that are worked on step by step.  A step that fails
leaves both as they were.
-/

namespace Anyonic

/-- The instructions and braids at hand. -/
structure Workbench (α : Type) where
  /-- The number of qubits. -/
  width : Nat
  instructions : List (Instruction α) := []
  braids : List BraidWord := []

namespace Workbench

variable {α : Type}

/-- Why a step failed. -/
inductive Failure (α : Type) where
  | circuit (error : CircuitError)
  | compile (error : CompileError α)
  /-- There is no braid at the given place. -/
  | noBraid (index : Nat)

/-- Failures of circuits stop a step. -/
def ofCircuit {β : Type} : Except CircuitError β → Except (Failure α) β
  | .ok value => .ok value
  | .error error => .error (.circuit error)

/-- Failures of compilations stop a step. -/
def ofCompile {β : Type} : Except (CompileError α) β → Except (Failure α) β
  | .ok value => .ok value
  | .error error => .error (.compile error)

/-- Add instructions at the end. -/
def push (bench : Workbench α) (instructions : List (Instruction α)) : Workbench α :=
  { bench with instructions := bench.instructions ++ instructions }

/-- Replace the instructions. -/
def withInstructions (bench : Workbench α) (instructions : List (Instruction α)) :
    Workbench α :=
  { bench with instructions }

/-- Choose the number of qubits. -/
def withWidth (bench : Workbench α) (width : Nat) : Workbench α := { bench with width }

/-- The depth of the instructions. -/
def depth (bench : Workbench α) : Nat := dependencyDepth bench.instructions bench.width

/-- Replace several braids by one that performs them in a row. -/
def join (bench : Workbench α) : Except (Failure α) (Workbench α) := do
  return { bench with braids := [← ofCircuit (BraidWord.concat bench.braids)] }

/-- Undo the braids, last first. -/
def invert (bench : Workbench α) : Workbench α :=
  { bench with braids := bench.braids.reverse.map BraidWord.inverse }

variable [Scalar α]

/-- The instructions as a circuit. -/
def circuit (bench : Workbench α) : Except (Failure α) (Circuit α) :=
  ofCircuit (Circuit.ofInstructions bench.width bench.instructions)

/-- Undo the instructions, last first. -/
def dagger (bench : Workbench α) : Workbench α :=
  bench.withInstructions (bench.instructions.reverse.map Instruction.inverse)

/-- Optimise the instructions. -/
def optimize (bench : Workbench α) (level : Nat) : Workbench α × OptimizationReport :=
  let (instructions, report) := optimizeWithReport bench.instructions level
  (bench.withInstructions instructions, report)

/-- Lower the instructions. -/
def lower (bench : Workbench α) (rules : LoweringRules) : Except (Failure α) (Workbench α) := do
  return bench.withInstructions (← ofCompile (Anyonic.lower rules bench.instructions))

/-- Compile the instructions; their braids take the place of those at hand. -/
def compile [Numeral α] (bench : Workbench α) (options : CompileOptions α) :
    Except (Failure α) (Workbench α × Compilation α) := do
  let compilation ← ofCompile (options.compile (← bench.circuit))
  return ({ bench with braids := compilation.braids }, compilation)

/-- Read a braid as a circuit, which takes the place of the one at hand. -/
def read (bench : Workbench α) (anyon : Anyon) (index level : Nat) :
    Except (Failure α) (Workbench α × Circuit α) := do
  match bench.braids[index]? with
  | none => throw (.noBraid index)
  | some word =>
      let circuit ← ofCompile (word.toCircuit anyon level)
      return ({ bench with width := circuit.width, instructions := circuit.instructions }, circuit)

end Workbench

end Anyonic
