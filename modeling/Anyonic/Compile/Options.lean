import Anyonic.Anyon
import Anyonic.Compile.Error

/-!
# Options of the compilers
-/

namespace Anyonic

/-- No search looks at words longer than this. -/
def maxSearchLength : Nat := 14

/-- The word lengths between which a search runs. -/
structure SearchBounds where
  /-- The length of the first base set that is searched. -/
  seed : Nat := 1
  /-- The length of the last base set that is searched. -/
  max : Nat := 8
deriving Repr, DecidableEq

/-- Options of the compilation of circuits to braids. -/
structure CompileOptions (α : Type) where
  anyon : Anyon
  /-- The error up to which the braid of a single gate is accepted. -/
  tolerance : α
  search : SearchBounds

/-- A tolerance has to be a number that is not negative. -/
def checkTolerance {α : Type} [Scalar α] [Numeral α] (tolerance : α) :
    Except (CompileError α) Unit :=
  if Scalar.isFinite tolerance && (0.0 : α) ≤ tolerance then .ok ()
  else
    .error (.validation
      s!"tolerance must be finite and non-negative, got {Numeral.shortest tolerance}")

namespace CompileOptions

variable {α : Type} [Scalar α]

/-- The options for an anyon with nothing else chosen. -/
def ofAnyon (anyon : Anyon) : CompileOptions α := ⟨anyon, 1e-2, {}⟩

/-- Check the options. -/
def validate [Numeral α] (options : CompileOptions α) : Except (CompileError α) Unit :=
  checkTolerance options.tolerance

end CompileOptions

/-- The highest level of optimisation. -/
def maxOptimizationLevel : Nat := 2

/-- The level of optimisation that is meant by any number. -/
def clampLevel (level : Nat) : Nat := min level maxOptimizationLevel

end Anyonic
