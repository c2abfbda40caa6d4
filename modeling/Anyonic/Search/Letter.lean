import Anyonic.Anyon

/-!
# Letters

A qubit lives on three strands, so two generators and their inverses act on it.  The first is
diagonal in the fusion channels of the first two anyons; the second is the same exchange seen
through the change of basis.
-/

namespace Anyonic

/-- A generator of the braids on three strands, or its inverse. -/
inductive Letter where
  | first
  | firstInverse
  | second
  | secondInverse
deriving Repr, DecidableEq

namespace Letter

/-- All letters, in the order in which words are tried. -/
def all : List Letter := [.first, .firstInverse, .second, .secondInverse]

/-- The letter that undoes this one. -/
def inverse : Letter → Letter
  | .first => .firstInverse
  | .firstInverse => .first
  | .second => .secondInverse
  | .secondInverse => .second

/-- The exchange that a letter denotes when the first of the three strands is `base`. -/
def generator (base : Nat) : Letter → Generator
  | .first => .clockwise base
  | .firstInverse => .counterClockwise base
  | .second => .clockwise (base + 1)
  | .secondInverse => .counterClockwise (base + 1)

end Letter

/-- The matrices of the letters. -/
structure LetterMatrices (α : Type) where
  first : QubitMatrix α
  firstInverse : QubitMatrix α
  second : QubitMatrix α
  secondInverse : QubitMatrix α

namespace LetterMatrices

variable {α : Type} [Scalar α]

/-- The matrix of a letter. -/
def get (matrices : LetterMatrices α) : Letter → QubitMatrix α
  | .first => matrices.first
  | .firstInverse => matrices.firstInverse
  | .second => matrices.second
  | .secondInverse => matrices.secondInverse

/-- The matrices of the letters in an anyon model. -/
def ofModel (model : AnyonModel α) : LetterMatrices α :=
  let (lower, upper) := model.channels?.getD (.vacuum, model.encoding)
  let first : QubitMatrix α :=
    .diagonal ((model.exchangePhase? lower).getD .one) ((model.exchangePhase? upper).getD .one)
  let second := model.basisChange * first * model.basisChange.dagger
  ⟨first, first.dagger, second, second.dagger⟩

/-- The matrices of the letters for an anyon. -/
def ofAnyon (anyon : Anyon) : LetterMatrices α := ofModel anyon.model

end LetterMatrices

end Anyonic
