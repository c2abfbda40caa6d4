import Anyonic.Search.Letter
import Std.Data.HashSet.Basic

/-!
# Base sets

The base set of length `L` holds the words of at most `L` letters whose matrices differ by more
than a global phase, each phase class represented by the word that is found first.  Words are
found in order of their length: the base set of length `L + 1` continues that of length `L` by
the words that extend its longest words by one letter and are new.
-/

namespace Anyonic

/-- A word together with its matrix. -/
structure BaseWord (α : Type) where
  /-- The letters in the order in which they are applied. -/
  letters : List Letter
  /-- The product of the letters' matrices. -/
  matrix : QubitMatrix α

namespace BaseWord

variable {α : Type} [Scalar α]

/-- The word without letters. -/
def empty : BaseWord α := ⟨[], .identity⟩

/-- The fingerprint of the word's phase class. -/
def key (word : BaseWord α) : List Int := word.matrix.phaseKey

/-- Apply one more letter. -/
def push (matrices : LetterMatrices α) (word : BaseWord α) (letter : Letter) : BaseWord α :=
  ⟨word.letters ++ [letter], matrices.get letter * word.matrix⟩

/-- The words with one more letter in which no letter stands next to its inverse. -/
def extensions (matrices : LetterMatrices α) (word : BaseWord α) : List (BaseWord α) :=
  (Letter.all.filter fun letter => word.letters.getLast? != some letter.inverse).map
    (word.push matrices)

end BaseWord

/-- Words collected while a base set grows. -/
structure Growth (α : Type) where
  /-- The fingerprints met so far. -/
  seen : Std.HashSet (List Int)
  /-- The new words, latest first. -/
  fresh : List (BaseWord α)

namespace Growth

variable {α : Type} [Scalar α]

/-- Take a word in if its phase class is new. -/
def offer (growth : Growth α) (word : BaseWord α) : Growth α :=
  let key := word.key
  if growth.seen.contains key then growth
  else ⟨growth.seen.insert key, word :: growth.fresh⟩

end Growth

/-- The words of at most `maxLength` letters that differ by more than a global phase. -/
structure BaseSet (α : Type) where
  anyon : Anyon
  maxLength : Nat
  /-- The words of fewer than `maxLength` letters. -/
  settled : List (BaseWord α)
  /-- The words of exactly `maxLength` letters. -/
  frontier : List (BaseWord α)

namespace BaseSet

variable {α : Type} [Scalar α]

/-- All words, shortest first. -/
def words (set : BaseSet α) : List (BaseWord α) := set.settled ++ set.frontier

/-- The number of words. -/
def size (set : BaseSet α) : Nat := set.words.length

/-- The set that holds only the empty word. -/
def root (anyon : Anyon) : BaseSet α := ⟨anyon, 0, [], [.empty]⟩

/-- The words that extend the frontier by one letter and belong to no phase class seen before. -/
def nextFrontier (set : BaseSet α) : List (BaseWord α) :=
  let matrices := LetterMatrices.ofAnyon set.anyon
  let start : Growth α := ⟨.ofList (set.words.map BaseWord.key), []⟩
  ((set.frontier.flatMap (·.extensions matrices)).foldl Growth.offer start).fresh.reverse

/-- The base set with words of one more letter. -/
def extend (set : BaseSet α) : BaseSet α :=
  ⟨set.anyon, set.maxLength + 1, set.words, set.nextFrontier⟩

/-- The base set of the given length. -/
def ofLength (anyon : Anyon) : Nat → BaseSet α
  | 0 => root anyon
  | length + 1 => (ofLength anyon length).extend

end BaseSet

end Anyonic
