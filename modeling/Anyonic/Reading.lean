import Anyonic.Peephole.Report
import Anyonic.PhaseLattice

/-!
# From braids to circuits

Each exchange is read as a phase gate on the qubit of its pair, and the list of gates is
optimised.
-/

namespace Anyonic

variable {α : Type} [Scalar α]

/-- The gate that an exchange realises. -/
def Generator.gate (anyon : Anyon) (generator : Generator) : Instruction α :=
  if anyon.hasExactPhases then generator.quarterTurn
  else
    let angle : α := anyon.model.relativePhase
    match generator.orientation with
    | .clockwise => .single (.rz angle) generator.index
    | .counterClockwise => .single (.rz (-angle)) generator.index

namespace BraidWord

/-- The global phase of a braid: the phases of its exchanges in the vacuum channel. -/
def totalPhase (anyon : Anyon) (word : BraidWord) : Amplitude α :=
  if word.generators.isEmpty then .one
  else
    let angles := word.generators.map fun generator =>
      (anyon.model.vacuumPhase generator.orientation).arg
    .phase (Scalar.normalizeAngle (angles.foldl (· + ·) (0.0 : α)))

/-- The circuit of a braid, optimised at a level, with a report. -/
def toCircuitWithReport (anyon : Anyon) (level : Nat) (word : BraidWord) :
    Except (CompileError α) (Circuit α × OptimizationReport) := do
  let (instructions, report) := optimizeWithReport (word.generators.map (·.gate anyon)) level
  let circuit ← CompileError.ofCircuit (Circuit.ofInstructions word.width instructions)
  return ({ circuit with totalPhase := word.totalPhase anyon }, report)

/-- The circuit of a braid, optimised at a level. -/
def toCircuit (anyon : Anyon) (level : Nat) (word : BraidWord) :
    Except (CompileError α) (Circuit α) :=
  Prod.fst <$> word.toCircuitWithReport anyon level

end BraidWord

end Anyonic
