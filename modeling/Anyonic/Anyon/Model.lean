import Anyonic.Braid
import Anyonic.QubitMatrix

/-!
# Anyon models

The part of an anyon model's algebra that the compiler reads: how two encoding anyons fuse, the
phase that their exchange gives to each fusion channel, and the change of basis between the two
ways of pairing three of them.
-/

namespace Anyonic

/-- Topological charges. -/
inductive Charge where
  | vacuum
  | sigma
  | psi
  | tau
deriving Repr, DecidableEq

namespace Charge

/-- The symbol of a charge. -/
def symbol : Charge → String
  | .vacuum => "1"
  | .sigma => "σ"
  | .psi => "ψ"
  | .tau => "τ"

end Charge

/-- Fusion and braiding data. -/
structure AnyonModel (α : Type) where
  /-- The charge of the anyons that encode qubits. -/
  encoding : Charge
  /-- The outcomes of fusing two charges; there are none if one is foreign to the model. -/
  fuse : Charge → Charge → List Charge
  /-- The phase of exchanging two encoding anyons in a fusion channel. -/
  exchangePhase? : Charge → Option (Amplitude α)
  /-- The change of basis on three encoding anyons from pairing the first two to the last two. -/
  basisChange : QubitMatrix α

namespace AnyonModel

variable {α : Type} [Scalar α]

/-- The first and the last fusion channel of two encoding anyons, if there are at least two. -/
def channels? (model : AnyonModel α) : Option (Charge × Charge) :=
  match model.fuse model.encoding model.encoding with
  | first :: second :: rest => some (first, rest.getLastD second)
  | _ => none

/-- The phase of one exchange in the vacuum channel. -/
def vacuumPhase (model : AnyonModel α) (orientation : Orientation) : Amplitude α :=
  let phase := (model.exchangePhase? .vacuum).getD .one
  match orientation with
  | .clockwise => phase
  | .counterClockwise => phase.conj

/--
The angle between the exchange phases of the two channels, in `(-π, π]`: the phase that one
clockwise exchange gives to the encoded qubit.  It is zero in a model that encodes no qubit.
-/
def relativePhase (model : AnyonModel α) : α :=
  match model.channels? with
  | none => 0.0
  | some (first, second) =>
      match model.exchangePhase? first, model.exchangePhase? second with
      | some base, some other => Scalar.normalizeAngle (other / base).arg
      | _, _ => 0.0

end AnyonModel

end Anyonic
