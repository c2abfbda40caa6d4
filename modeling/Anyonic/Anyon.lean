import Anyonic.Anyon.Model

/-!
# The supported anyons

Ising anyons, whose exchanges act on an encoded qubit as quarter turns, and Fibonacci anyons,
whose exchanges come close to every operation and meet none of the usual gates.
-/

namespace Anyonic

/-- The anyons a circuit can be compiled for. -/
inductive Anyon where
  | ising
  | fibonacci
deriving Repr, DecidableEq

namespace Anyon

/-- The name of an anyon. -/
def name : Anyon → String
  | .ising => "Ising"
  | .fibonacci => "Fibonacci"

/-- Whether exchanges of one pair realise some gates without error. -/
def hasExactPhases : Anyon → Bool
  | .ising => true
  | .fibonacci => false

/-- The fusion rules of Ising anyons. -/
def isingFusion : Charge → Charge → List Charge
  | .tau, _ | _, .tau => []
  | .vacuum, other => [other]
  | other, .vacuum => [other]
  | .sigma, .sigma => [.vacuum, .psi]
  | .sigma, .psi | .psi, .sigma => [.sigma]
  | .psi, .psi => [.vacuum]

/-- The fusion rules of Fibonacci anyons. -/
def fibonacciFusion : Charge → Charge → List Charge
  | .sigma, _ | .psi, _ | _, .sigma | _, .psi => []
  | .vacuum, other => [other]
  | other, .vacuum => [other]
  | .tau, .tau => [.vacuum, .tau]

variable {α : Type} [Scalar α]

/-- The change of basis of Ising anyons. -/
def isingBasisChange : QubitMatrix α :=
  let entry : Amplitude α := .ofReal (1.0 / Scalar.sqrt 2.0)
  ⟨entry, entry, entry, -entry⟩

/-- The golden ratio. -/
def goldenRatio : α := (1.0 + Scalar.sqrt 5.0) / 2.0

/-- The change of basis of Fibonacci anyons. -/
def fibonacciBasisChange : QubitMatrix α :=
  let diagonal : Amplitude α := .ofReal (1.0 / goldenRatio)
  let cross : Amplitude α := .ofReal (1.0 / Scalar.sqrt goldenRatio)
  ⟨diagonal, cross, cross, -diagonal⟩

/-- The fusion and braiding data of an anyon. -/
def model : Anyon → AnyonModel α
  | .ising =>
      { encoding := .sigma
        fuse := isingFusion
        exchangePhase? := fun
          | .vacuum => some (.phase (-Scalar.pi / 8.0))
          | .psi => some (.phase (3.0 * Scalar.pi / 8.0))
          | _ => none
        basisChange := isingBasisChange }
  | .fibonacci =>
      { encoding := .tau
        fuse := fibonacciFusion
        exchangePhase? := fun
          | .vacuum => some (.phase (-4.0 * Scalar.pi / 5.0))
          | .tau => some (.phase (3.0 * Scalar.pi / 5.0))
          | _ => none
        basisChange := fibonacciBasisChange }

end Anyon

end Anyonic
