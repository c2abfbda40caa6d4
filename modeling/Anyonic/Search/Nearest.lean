import Anyonic.Compile.Options
import Anyonic.Gate.Matrix
import Anyonic.Search.BaseSet

/-!
# The nearest word

The search goes through base sets of growing length, keeps the place of the closest word met so
far, and stops at the first length at which that word is within the tolerance.
-/

namespace Anyonic

/-- A word that approximates a target, with its distance from it. -/
structure Approximation (α : Type) where
  letters : List Letter
  matrix : QubitMatrix α
  error : α

namespace Approximation

variable {α : Type}

/-- The braid of the word, on the three strands that begin with `qubit`. -/
def braid (approximation : Approximation α) (qubit strands : Nat) :
    Except CircuitError BraidWord :=
  BraidWord.ofGenerators strands (approximation.letters.map (Letter.generator qubit))

end Approximation

/-- Whether a search may look at words of the given length. -/
def checkLength {α : Type} (length : Nat) : Except (CompileError α) Unit :=
  if maxSearchLength < length then
    .error (.validation
      s!"approximation word length {length} exceeds the limit of {maxSearchLength}")
  else .ok ()

namespace BaseSet

variable {α : Type} [Scalar α]

/-- The base set of the given length, if a search may look at it. -/
def ofLength? (anyon : Anyon) (length : Nat) : Except (CompileError α) (BaseSet α) := do
  checkLength length
  return ofLength anyon length

/-- The next base set, if a search may look at it. -/
def extend? (set : BaseSet α) : Except (CompileError α) (BaseSet α) := do
  checkLength (set.maxLength + 1)
  return set.extend

end BaseSet

namespace Search

variable {α : Type} [Scalar α]

/-- The place of a word in its base set, with its distance from the target. -/
structure Candidate (α : Type) where
  index : Nat
  error : α

/-- Of the best candidate so far and a numbered word, the closer; the earlier if they tie. -/
def improve (target : QubitMatrix α) (best : Option (Candidate α)) (entry : BaseWord α × Nat) :
    Option (Candidate α) :=
  let error := target.distance entry.1.matrix
  match best with
  | none => some ⟨entry.2, error⟩
  | some found => if error < found.error then some ⟨entry.2, error⟩ else best

/-- Look at the words of a base set, except for the first ones, which have been scanned before. -/
def scan (target : QubitMatrix α) (set : BaseSet α) (scanned : Nat)
    (best : Option (Candidate α)) : Option (Candidate α) :=
  (set.words.zipIdx.drop scanned).foldl (improve target) best

/-- Whether the best candidate is within the tolerance. -/
def isClose (tolerance : α) (best : Option (Candidate α)) : Bool :=
  best.any fun found => found.error ≤ tolerance

/--
Continue a search that has scanned `set` into the base sets after it, at most `remaining` of them.
The base set scanned last comes back with the best candidate.
-/
def scanOnwards (target : QubitMatrix α) (tolerance : α) :
    (remaining : Nat) → BaseSet α → Option (Candidate α) →
      Except (CompileError α) (BaseSet α × Option (Candidate α))
  | 0, set, best => .ok (set, best)
  | remaining + 1, set, best =>
      if isClose tolerance best then .ok (set, best)
      else do
        let next ← set.extend?
        scanOnwards target tolerance remaining next (scan target next set.size best)

/-- The word of a candidate, looked up in a base set. -/
def lookUp (set : BaseSet α) (best : Option (Candidate α)) : Option (Approximation α) :=
  best.bind fun found => set.words[found.index]?.map fun word =>
    ⟨word.letters, word.matrix, found.error⟩

/--
The word closest to a target.  Only its place is kept on the way, and it is looked up in the base
set scanned last, which may be larger than the one where the place was noted.
-/
def approximate (anyon : Anyon) (target : QubitMatrix α) (tolerance : α)
    (bounds : SearchBounds) : Except (CompileError α) (Approximation α) := do
  if bounds.max < bounds.seed then
    throw (.validation s!"seed length {bounds.seed} exceeds max length {bounds.max}")
  let first ← BaseSet.ofLength? anyon bounds.seed
  let (last, best) ← scanOnwards target tolerance (bounds.max - bounds.seed) first
    (scan target first 0 none)
  match lookUp last best with
  | some approximation => return approximation
  | none => throw (.validation "approximation base set is empty")

/-- The word closest to a single-qubit gate. -/
def approximateGate [Numeral α] (anyon : Anyon) (gate : Gate α) (tolerance : α)
    (bounds : SearchBounds) : Except (CompileError α) (Approximation α) :=
  match gate.matrix? with
  | some target => approximate anyon target tolerance bounds
  | none => .error (.validation s!"'{gate.text}' is not a single-qubit gate")

end Search

end Anyonic
