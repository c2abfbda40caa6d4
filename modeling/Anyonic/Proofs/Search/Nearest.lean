import Mathlib
import Anyonic.Proofs.Double.Laws
import Anyonic.Proofs.Exact.Discrepancy
import Anyonic.Proofs.Search.Hadamard
import Anyonic.Proofs.Search.Representation
import Anyonic.Proofs.Search.Scan

/-!
# What a search finds

A search goes through base sets of growing length, looks only at the words that each of them adds,
and stops at the first length that has a word within the tolerance.  Since base sets continue each
other, the best word that it keeps is always the first of the closest words of the whole base set it
has come to, so that the result is what a search through that base set alone would have found.
Distances can always be compared, which is all that is asked of the numbers.
-/

namespace Anyonic

namespace Search

variable {α : Type} [Scalar α]

/-- The word at an index is the first of the words that are closest to a target. -/
structure FirstNearest (target : QubitMatrix α) (words : List (BaseWord α)) (index : ℕ)
    (word : BaseWord α) : Prop where
  found : words[index]? = some word
  nearest : ∀ other ∈ words, target.distance word.matrix ≤ target.distance other.matrix
  first : ∀ earlier < index, ∀ other : BaseWord α, words[earlier]? = some other →
    target.distance word.matrix < target.distance other.matrix

/-- Some word of a base set is within the tolerance. -/
def Meets (target : QubitMatrix α) (tolerance : α) (set : BaseSet α) : Prop :=
  ∃ word ∈ set.words, target.distance word.matrix ≤ tolerance

/--
The least length between the bounds of a search at which a word is within the tolerance, or the
largest length if there is none.
-/
structure StopsAt (anyon : Anyon) (target : QubitMatrix α) (tolerance : α) (bounds : SearchBounds)
    (length : ℕ) : Prop where
  seed_le : bounds.seed ≤ length
  le_max : length ≤ bounds.max
  far : ∀ level, bounds.seed ≤ level → level < length →
    ¬Meets target tolerance (BaseSet.ofLength anyon level)
  near : length < bounds.max → Meets target tolerance (BaseSet.ofLength anyon length)

variable {target : QubitMatrix α} {tolerance : α} {anyon : Anyon}

/-- A word with its distance from the target. -/
def measured (target : QubitMatrix α) (word : BaseWord α) : Approximation α :=
  ⟨word.letters, word.matrix, target.distance word.matrix⟩

theorem closest_concat (words : List (BaseWord α)) (best : Option (Approximation α))
    (word : BaseWord α) :
    closest target best (words ++ [word]) = closer target (closest target best words) word := by
  simp [closest]

/-- What a level adds is all that is left to look at. -/
theorem closest_extend (set : BaseSet α) :
    closest target (closest target none set.words) set.extend.frontier =
      closest target none set.extend.words := by
  simp [closest, BaseSet.words, BaseSet.extend]

theorem ofLength?_eq {length : ℕ} (allowed : length ≤ maxSearchLength) :
    (BaseSet.ofLength? anyon length : Except (CompileError α) (BaseSet α)) =
      .ok (BaseSet.ofLength anyon length) := by
  have short : ¬maxSearchLength < length := Nat.not_lt.2 allowed
  simp only [BaseSet.ofLength?, checkLength, short, if_false]
  rfl

theorem extend?_ofLength {length : ℕ} (allowed : length + 1 ≤ maxSearchLength) :
    (BaseSet.ofLength anyon length : BaseSet α).extend? =
      .ok (BaseSet.ofLength anyon (length + 1)) := by
  have short : ¬maxSearchLength < length + 1 := Nat.not_lt.2 allowed
  simp only [BaseSet.extend?, checkLength, BaseSet.maxLength_ofLength, short, if_false]
  rfl

namespace StopsAt

variable {bounds : SearchBounds} {seed max length : ℕ}

theorem at_seed (ordered : bounds.seed ≤ bounds.max)
    (near : bounds.seed < bounds.max →
      Meets target tolerance (BaseSet.ofLength anyon bounds.seed)) :
    StopsAt anyon target tolerance bounds bounds.seed where
  seed_le := le_rfl
  le_max := ordered
  far := by
    intro level seed_le level_lt
    omega
  near := near

theorem of_far (far : ¬Meets target tolerance (BaseSet.ofLength anyon seed))
    (later : StopsAt anyon target tolerance ⟨seed + 1, max⟩ length) :
    StopsAt anyon target tolerance ⟨seed, max⟩ length where
  seed_le := Nat.le_of_succ_le later.seed_le
  le_max := later.le_max
  far := by
    intro level seed_le level_lt
    rcases Nat.eq_or_lt_of_le seed_le with rfl | seed_lt
    · exact far
    · exact later.far level seed_lt level_lt
  near := later.near

end StopsAt

/-- In a list that goes from short words to long ones, no shorter word is as close. -/
theorem FirstNearest.lt_of_shorter {words : List (BaseWord α)} {index : ℕ} {word : BaseWord α}
    (nearest : FirstNearest target words index word)
    (ordered : words.Pairwise fun earlier later => earlier.letters.length ≤ later.letters.length) :
    ∀ other ∈ words, other.letters.length < word.letters.length →
      target.distance word.matrix < target.distance other.matrix := by
  intro other listed shorter
  rcases List.getElem_of_mem listed with ⟨place, inside, other_eq⟩
  rcases List.getElem?_eq_some_iff.1 nearest.found with ⟨inside', word_eq⟩
  apply nearest.first place
  · by_contra notBefore
    rcases Nat.eq_or_lt_of_le (Nat.le_of_not_lt notBefore) with rfl | behind
    · rw [other_eq] at word_eq
      rw [word_eq] at shorter
      omega
    · have longer := List.pairwise_iff_getElem.1 ordered index place inside' inside behind
      rw [other_eq, word_eq] at longer
      omega
  · exact List.getElem?_eq_some_iff.2 ⟨inside, other_eq⟩

variable [LinearScalar α]

theorem FirstNearest.of_closer {words : List (BaseWord α)} {index : ℕ} {best word : BaseWord α}
    (nearest : FirstNearest target words index best)
    (closer : target.distance word.matrix < target.distance best.matrix) :
    FirstNearest target (words ++ [word]) words.length word := by
  have comparable := target.distance_le_self word.matrix
  have beats : ∀ other ∈ words, target.distance word.matrix < target.distance other.matrix := by
    intro other listed
    exact LinearScalar.lt_of_lt_of_le comparable closer (nearest.nearest other listed)
  refine ⟨by simp, ?_, ?_⟩
  · intro other listed
    rcases List.mem_append.1 listed with listed | listed
    · exact LinearScalar.le_of_lt (beats other listed)
    · rw [List.mem_singleton.1 listed]
      exact comparable
  · intro earlier before other found
    apply beats
    rw [List.getElem?_append_left before] at found
    exact List.mem_of_getElem? found

theorem FirstNearest.of_not_closer {words : List (BaseWord α)} {index : ℕ} {best word : BaseWord α}
    (nearest : FirstNearest target words index best)
    (notCloser : ¬target.distance word.matrix < target.distance best.matrix) :
    FirstNearest target (words ++ [word]) index best := by
  have inside : index < words.length := (List.getElem?_eq_some_iff.1 nearest.found).1
  refine ⟨?_, ?_, ?_⟩
  · rw [List.getElem?_append_left inside]
    exact nearest.found
  · intro other listed
    rcases List.mem_append.1 listed with listed | listed
    · exact nearest.nearest other listed
    · rw [List.mem_singleton.1 listed]
      apply LawfulScalar.le_of_not_lt _ _ notCloser
      · exact target.distance_le_self word.matrix
      · exact target.distance_le_self best.matrix
  · intro earlier before other found
    rw [List.getElem?_append_left (before.trans inside)] at found
    exact nearest.first earlier before other found

theorem exists_closest_eq {words : List (BaseWord α)} (notEmpty : words ≠ []) :
    ∃ index word, FirstNearest target words index word ∧
      closest target none words = some (measured target word) := by
  induction words using List.reverseRecOn with
  | nil => exact absurd rfl notEmpty
  | append_singleton words word ih =>
      rw [closest_concat]
      by_cases start : words = []
      · subst start
        refine ⟨0, word, ⟨rfl, ?_, ?_⟩, rfl⟩
        · intro other listed
          rw [List.mem_singleton.1 listed]
          exact target.distance_le_self word.matrix
        · intro earlier before
          omega
      · rcases ih start with ⟨index, best, nearest, closest_eq⟩
        rw [closest_eq]
        by_cases closer : target.distance word.matrix < target.distance best.matrix
        · exact ⟨words.length, word, nearest.of_closer closer, if_pos closer⟩
        · exact ⟨index, best, nearest.of_not_closer closer, if_neg closer⟩

theorem exists_closest_ofLength (target : QubitMatrix α) (anyon : Anyon) (length : ℕ) :
    ∃ index word, FirstNearest target (BaseSet.ofLength anyon length).words index word ∧
      closest target none (BaseSet.ofLength anyon length).words = some (measured target word) := by
  apply exists_closest_eq
  intro empty
  have head := (BaseSet.orderly_ofLength (α := α) anyon length).head
  simp [empty] at head

/-- The closest word is within the tolerance if any word is. -/
theorem within_closest_iff (length : ℕ) :
    within tolerance (closest target none (BaseSet.ofLength anyon length).words) ↔
      Meets target tolerance (BaseSet.ofLength anyon length) := by
  rcases exists_closest_ofLength target anyon length with ⟨index, best, nearest, closest_eq⟩
  rw [closest_eq, within_some]
  constructor
  · intro near
    exact ⟨best, List.mem_of_getElem? nearest.found, near⟩
  · rintro ⟨word, listed, near⟩
    exact LawfulScalar.le_trans (nearest.nearest word listed) near

/-- A search that goes on from a length stops at the closest word of some base set. -/
theorem exists_continueFrom_eq (anyon : Anyon) (target : QubitMatrix α) (tolerance : α)
    {seed max : ℕ} (ordered : seed ≤ max) (allowed : max ≤ maxSearchLength) :
    ∃ length, StopsAt anyon target tolerance ⟨seed, max⟩ length ∧
      continueFrom target tolerance (max - seed) (BaseSet.ofLength anyon seed)
          (closest target none (BaseSet.ofLength anyon seed).words) =
        .ok (closest target none (BaseSet.ofLength anyon length).words) := by
  induction remaining_eq : max - seed generalizing seed with
  | zero =>
      have same : seed = max := by omega
      subst same
      exact ⟨seed, .at_seed le_rfl (by simp), rfl⟩
  | succ remaining ih =>
      by_cases near : within tolerance
          (closest target none (BaseSet.ofLength anyon seed : BaseSet α).words)
      · refine ⟨seed, .at_seed ordered ?_, continueFrom_of_within near _⟩
        intro _
        exact (within_closest_iff seed).1 near
      · have far := mt (within_closest_iff seed).2 near
        have ordered' : seed + 1 ≤ max := by omega
        rcases ih ordered' (by omega) with ⟨length, stops, finished⟩
        refine ⟨length, stops.of_far far, ?_⟩
        rw [continueFrom_of_not_within near, extend?_ofLength (ordered'.trans allowed)]
        exact (congrArg _ (closest_extend _)).trans finished

/-- Where a search stops, and the word it has found there. -/
theorem exists_stopsAt (anyon : Anyon) (target : QubitMatrix α) (tolerance : α)
    {bounds : SearchBounds} (ordered : bounds.seed ≤ bounds.max)
    (allowed : bounds.max ≤ maxSearchLength) :
    ∃ length index word, StopsAt anyon target tolerance bounds length ∧
      FirstNearest target (BaseSet.ofLength anyon length).words index word ∧
      approximate anyon target tolerance bounds = .ok (measured target word) := by
  rcases exists_continueFrom_eq anyon target tolerance ordered allowed with
    ⟨length, stops, finished⟩
  rcases exists_closest_ofLength target anyon length with ⟨index, word, nearest, closest_eq⟩
  rw [closest_eq] at finished
  exact ⟨length, index, word, stops, nearest,
    approximate_eq_ok_iff.2 ⟨ordered, _, ofLength?_eq (ordered.trans allowed), finished⟩⟩

/--
A search finds the first of the closest words of one base set: that of the least length at which a
word is within the tolerance, or of the largest length if there is none.  No shorter word of that
base set is as close.
-/
theorem exists_approximate_eq (anyon : Anyon) (target : QubitMatrix α) (tolerance : α)
    {bounds : SearchBounds} (ordered : bounds.seed ≤ bounds.max)
    (allowed : bounds.max ≤ maxSearchLength) :
    ∃ length index word, StopsAt anyon target tolerance bounds length ∧
      FirstNearest target (BaseSet.ofLength anyon length).words index word ∧
      approximate anyon target tolerance bounds =
        .ok ⟨word.letters, word.matrix, target.distance word.matrix⟩ ∧
      ∀ other ∈ (BaseSet.ofLength anyon length).words,
        other.letters.length < word.letters.length →
          target.distance word.matrix < target.distance other.matrix := by
  rcases exists_stopsAt anyon target tolerance ordered allowed with
    ⟨length, index, word, stops, nearest, approximated⟩
  exact ⟨length, index, word, stops, nearest, approximated,
    nearest.lt_of_shorter (BaseSet.ordered_words anyon length)⟩

/-- A search for the Hadamard matrix that half way is enough for stops at one letter. -/
theorem StopsAt.eq_one_of_hadamard {bounds : SearchBounds} {length : ℕ}
    (stops : StopsAt .ising (.hadamard : QubitMatrix ℝ) (1 / 2) bounds length)
    (seed : bounds.seed = 0) (max : 1 ≤ bounds.max) : length = 1 := by
  rcases Nat.lt_trichotomy length 1 with early | rfl | late
  · obtain rfl : length = 0 := by omega
    rcases stops.near max with ⟨word, listed, near⟩
    exact absurd (List.length_eq_zero_iff.1 (Nat.le_zero.1 (BaseSet.length_le listed)))
      (BaseSet.letters_ne_nil_of_halfway listed near)
  · rfl
  · rcases BaseSet.exists_halfway_hadamard with ⟨halfway, present, half⟩
    exact absurd ⟨halfway, present, half.le⟩ (stops.far 1 (by omega) late)

/-- Of the words of at most one letter, none is as close to the Hadamard matrix as a letter. -/
theorem FirstNearest.length_eq_one_of_hadamard {index : ℕ} {word : BaseWord ℝ}
    (nearest : FirstNearest .hadamard (BaseSet.ofLength .ising 1).words index word) :
    word.letters.length = 1 ∧ QubitMatrix.hadamard.distance word.matrix ≤ 1 / 2 := by
  have listed := List.mem_of_getElem? nearest.found
  rcases BaseSet.exists_halfway_hadamard with ⟨halfway, present, half⟩
  have near := half ▸ nearest.nearest halfway present
  have letters := List.length_pos_iff.2 (BaseSet.letters_ne_nil_of_halfway listed near)
  have short := BaseSet.length_le listed
  exact ⟨by omega, near⟩

/--
A search for the Hadamard matrix goes on from the empty word to words of one letter and stops there.
Where no tolerance can be met, a search for the identity goes through all lengths, and the place it
noted at the first is looked up in the last base set.
-/
theorem exists_approximate_eq_extending :
    let bounds : SearchBounds := ⟨0, 14⟩
    bounds.seed ≤ bounds.max ∧ bounds.max ≤ maxSearchLength ∧
      (∃ word : BaseWord ℝ, word.letters.length = 1 ∧
        approximate .ising .hadamard (1 / 2) bounds =
          .ok ⟨word.letters, word.matrix, QubitMatrix.hadamard.distance word.matrix⟩ ∧
        QubitMatrix.hadamard.distance word.matrix ≤ 1 / 2) ∧
      approximate .fibonacci (.identity : QubitMatrix ℝ) (-1) bounds = .ok ⟨[], .identity, 0⟩ := by
  intro bounds
  have ordered : bounds.seed ≤ bounds.max := Nat.zero_le 14
  have allowed : bounds.max ≤ maxSearchLength := Nat.le_refl 14
  refine ⟨ordered, allowed, ?_, ?_⟩
  · rcases exists_approximate_eq .ising (.hadamard : QubitMatrix ℝ) (1 / 2) ordered allowed with
      ⟨length, index, word, stops, nearest, approximated, -⟩
    obtain rfl := stops.eq_one_of_hadamard rfl (by decide)
    rcases nearest.length_eq_one_of_hadamard with ⟨single, near⟩
    exact ⟨word, single, approximated, near⟩
  · rcases exists_approximate_eq .fibonacci (.identity : QubitMatrix ℝ) (-1) ordered allowed with
      ⟨length, index, word, stops, nearest, approximated, -⟩
    have agrees := QubitMatrix.isUnitary_identity.distance_self
    have head := (BaseSet.orderly_ofLength (α := ℝ) .fibonacci length).head
    rw [List.head?_eq_getElem?] at head
    obtain rfl : index = 0 := by
      by_contra later
      have closer := nearest.first 0 (Nat.pos_of_ne_zero later) _ head
      simp only [BaseWord.empty, agrees] at closer
      exact absurd closer (not_lt.2 (@QubitMatrix.distance_nonneg ℝ .real _ _))
    obtain rfl : word = .empty := Option.some.inj (nearest.found.symm.trans head)
    simpa only [BaseWord.empty, agrees] using approximated

end Search

end Anyonic
