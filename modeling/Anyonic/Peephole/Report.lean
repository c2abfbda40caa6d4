import Anyonic.Circuit
import Anyonic.Peephole.Pipeline

/-!
# Optimisation, with a report

The optimiser at its preset levels, and the figures of a list before and after.
-/

namespace Anyonic

variable {α : Type} [Scalar α]

/-- What an optimisation has achieved. -/
structure OptimizationReport where
  originalGates : Nat
  optimizedGates : Nat
  originalT : Nat
  optimizedT : Nat
  originalDepth : Nat
  optimizedDepth : Nat
  /-- The passes that changed the list, in the order in which they first did. -/
  passes : List String
deriving Repr, DecidableEq

namespace OptimizationReport

/-- By how many instructions the list has become shorter. -/
def gatesRemoved (report : OptimizationReport) : Nat :=
  report.originalGates - report.optimizedGates

/-- By how much the T-count has decreased. -/
def tRemoved (report : OptimizationReport) : Nat := report.originalT - report.optimizedT

/-- The report, one figure a line. -/
def text (report : OptimizationReport) : String :=
  let passes := if report.passes.isEmpty then "none" else ", ".intercalate report.passes
  "OptimizationStats:\n"
    ++ s!"  gates: {report.originalGates} -> {report.optimizedGates}\n"
    ++ s!"  T-count: {report.originalT} -> {report.optimizedT}\n"
    ++ s!"  depth: {report.originalDepth} -> {report.optimizedDepth}\n"
    ++ s!"  passes: {passes}\n"

end OptimizationReport

/-- The width that the operands take up: one more than the largest, in 32 bits. -/
def usedWidth (instructions : List (Instruction α)) : Nat :=
  ((instructions.flatMap Instruction.qubits).map wrappingSucc).foldl max 0

/-- The instructions, optimised at a level. -/
def optimize (instructions : List (Instruction α)) (level : Nat) : List (Instruction α) :=
  ((Peephole.Pipeline.ofLevel level).run instructions).instructions

/-- The instructions, optimised at a level, with a report. -/
def optimizeWithReport (instructions : List (Instruction α)) (level : Nat) :
    List (Instruction α) × OptimizationReport :=
  let width := usedWidth instructions
  let result := (Peephole.Pipeline.ofLevel level).run instructions
  (result.instructions,
    { originalGates := instructions.length
      optimizedGates := result.instructions.length
      originalT := tCount instructions
      optimizedT := tCount result.instructions
      originalDepth := dependencyDepth instructions width
      optimizedDepth := dependencyDepth result.instructions width
      passes := result.applied })

end Anyonic
