import Anyonic.Anyon
import Anyonic.Instruction

/-!
# Compiled circuits

The braid of each instruction with the error that it makes, and what these add up to.
-/

namespace Anyonic

variable {α : Type} [Scalar α]

/-- The braid compiled for one instruction. -/
structure Decomposition (α : Type) where
  /-- The text of the instruction's operation. -/
  name : String
  /-- The qubits of the instruction. -/
  qubits : List Nat
  braid : BraidWord
  /-- The distance between the braid and the instruction. -/
  error : α
  /-- Remarks on how the braid was found. -/
  notes : List String
deriving BEq

namespace Decomposition

/-- Whether the braid makes no error. -/
def isExact (decomposition : Decomposition α) : Bool := decomposition.error == 0.0

/-- The instruction, its braid and the error. -/
def text [Numeral α] (decomposition : Decomposition α) : String :=
  let accuracy :=
    if decomposition.isExact then "exact"
    else "error " ++ Numeral.scientific 3 decomposition.error
  decomposition.name ++ operandText decomposition.qubits
    ++ s!" -> {decomposition.braid.text} ({accuracy})"

end Decomposition

/-- A compiled circuit. -/
structure Compilation (α : Type) where
  anyon : Anyon
  /-- The number of instructions before lowering. -/
  originalGates : Nat
  decompositions : List (Decomposition α)
deriving BEq

namespace Compilation

/-- The braids, in order. -/
def braids (compilation : Compilation α) : List BraidWord :=
  compilation.decompositions.map Decomposition.braid

/-- The sum of the errors. -/
def totalError (compilation : Compilation α) : α :=
  (compilation.decompositions.map Decomposition.error).foldl (· + ·) 0.0

/-- Whether the errors add up to nothing. -/
def isExact (compilation : Compilation α) : Bool := compilation.totalError == 0.0

/-- All remarks, in order. -/
def warnings (compilation : Compilation α) : List String :=
  compilation.decompositions.flatMap Decomposition.notes

/-- The number of exchanges in all braids. -/
def braidLength (compilation : Compilation α) : Nat :=
  (compilation.braids.map BraidWord.length).foldl (· + ·) 0

/-- The compiled circuit, with a line for each instruction and each remark. -/
def text [Numeral α] (compilation : Compilation α) : String :=
  let accuracy :=
    if compilation.isExact then "exact"
    else "total error " ++ Numeral.scientific 3 compilation.totalError
  s!"CompilationResult ({compilation.anyon.name}): {compilation.originalGates} gates -> "
    ++ s!"{compilation.braids.length} braids, {compilation.braidLength} generators\n"
    ++ s!"  {accuracy}\n"
    ++ String.join (compilation.decompositions.map fun part => s!"  {part.text}\n")
    ++ String.join (compilation.warnings.map fun warning => s!"  warning: {warning}\n")

end Compilation

end Anyonic
