import Anyonic.Compile.Options
import Anyonic.Instruction

/-!
# Gates that braids realise exactly

One clockwise exchange of an encoding pair turns the phase of the encoded qubit by a fixed angle,
so the braids of the pair realise the multiples of that angle: a lattice of phases.  A diagonal
gate on the lattice has an exact braid; the angle of a rotation is rounded to the lattice.
-/

namespace Anyonic

variable {α : Type} [Scalar α]

/-- The phases that the exchanges of one pair realise. -/
structure PhaseLattice (α : Type) where
  anyon : Anyon
  /-- The phase of one clockwise exchange. -/
  spacing : α

/-- A braid for a gate, with the angle by which it misses. -/
structure ExactBraid (α : Type) where
  word : BraidWord
  error : α

namespace PhaseLattice

/-- The lattice of an anyon whose braids realise some gates exactly. -/
def ofAnyon? (anyon : Anyon) : Option (PhaseLattice α) :=
  if anyon.hasExactPhases then some ⟨anyon, anyon.model.relativePhase⟩ else none

/-- A gate with a fixed phase is on the lattice if it misses it by no more than this. -/
def latticeTolerance : α := 1e-10

/-- Residuals below this are rounding noise. -/
def residualFloor : α := 1e-12

/--
The multiple of the spacing nearest to an angle, and what remains of the angle, which lies above
minus half the spacing and not above half the spacing.
-/
def round (lattice : PhaseLattice α) (angle : α) : Int × α :=
  let angle := Scalar.normalizeAngle angle
  let count := Scalar.nearest (angle / lattice.spacing)
  let residual := angle - Scalar.ofInt count * lattice.spacing
  if residual ≤ -lattice.spacing / 2.0 then (count - 1, residual + lattice.spacing)
  else if lattice.spacing / 2.0 < residual then (count + 1, residual - lattice.spacing)
  else (count, residual)

/-- The size of a residual, without noise. -/
def residualSize (residual : α) : α :=
  let size := Scalar.abs residual
  if size < residualFloor then 0.0 else size

/-- The number of exchanges for a gate and the error they leave. -/
def count (lattice : PhaseLattice α) (gate : Gate α) (tolerance : α) :
    Except (CompileError α) (Int × α) :=
  match gate.diagonalPhase? with
  | none => .error (.exactMappingUnavailable gate.name)
  | some phase =>
      let (count, residual) := lattice.round phase
      match gate with
      | .rz _ | .p _ =>
          let error := residualSize residual
          if tolerance < error then .error (.toleranceExceeded gate.name error tolerance)
          else .ok (count, error)
      | _ =>
          if latticeTolerance < Scalar.abs residual then
            .error (.exactMappingUnavailable gate.name)
          else .ok (count, 0.0)

/-- As many exchanges of a pair as `count` says, clockwise if it is positive. -/
def exchanges (index : Nat) (count : Int) : List Generator :=
  let orientation : Orientation := if 0 < count then .clockwise else .counterClockwise
  List.replicate count.natAbs ⟨index, orientation⟩

/-- The braid of a single-qubit gate, within a tolerance. -/
def braid [Numeral α] (lattice : PhaseLattice α) (gate : Gate α) (qubit strands : Nat)
    (tolerance : α) : Except (CompileError α) (ExactBraid α) := do
  checkTolerance tolerance
  let (count, error) ← lattice.count gate tolerance
  let word ← CompileError.ofCircuit (BraidWord.ofGenerators strands (exchanges qubit count))
  return ⟨word, error⟩

end PhaseLattice

namespace Generator

/-- The gate that an exchange realises when exchanges are quarter turns. -/
def quarterTurn (generator : Generator) : Instruction α :=
  match generator.orientation with
  | .clockwise => .single .s generator.index
  | .counterClockwise => .single .sdg generator.index

end Generator

end Anyonic
