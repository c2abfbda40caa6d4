import Anyonic.Proofs.Search.Ising

/-!
# Completeness of base sets

A word that is dropped from a base set is dropped together with everything that would have grown
from it.  Nothing is lost that way where fingerprints tell exactly which matrices agree up to a
global phase: whatever would have grown from a dropped word agrees with what grows from the word
that was kept in its place, and the kept word is no longer.  A base set therefore has one word for
each phase class that some word of its length reaches, and it is a shortest word of the class.
-/

namespace Anyonic

variable {α : Type} [Scalar α]

/-- A base set has a word with the fingerprint of the given letters. -/
def BaseSet.Represents (set : BaseSet α) (letters : List Letter) : Prop :=
  ∃ word ∈ set.words, word.key = (BaseWord.ofLetters (α := α) set.anyon letters).key

namespace FaithfulKeys

variable {anyon : Anyon} {length : ℕ} {Agree : QubitMatrix α → QubitMatrix α → Prop}
  (faithful : FaithfulKeys anyon length Agree)
include faithful

theorem key_concat {first second : List Letter} (letter : Letter)
    (first_lt : first.length < length) (second_lt : second.length < length)
    (same : (BaseWord.ofLetters (α := α) anyon first).key =
      (BaseWord.ofLetters (α := α) anyon second).key) :
    (BaseWord.ofLetters (α := α) anyon (first ++ [letter])).key =
      (BaseWord.ofLetters (α := α) anyon (second ++ [letter])).key := by
  have agree := (faithful.key_eq_iff (Nat.le_of_lt first_lt) (Nat.le_of_lt second_lt)).1 same
  apply (faithful.key_eq_iff _ _).2
  · exact faithful.agree_concat letter first_lt second_lt agree
  · rw [List.length_append]
    exact first_lt
  · rw [List.length_append]
    exact second_lt

theorem key_concat_inverse (letters : List Letter) (letter : Letter)
    (bounded : letters.length + 2 ≤ length) :
    (BaseWord.ofLetters (α := α) anyon (letters ++ [letter.inverse] ++ [letter])).key =
      (BaseWord.ofLetters (α := α) anyon letters).key := by
  apply (faithful.key_eq_iff _ _).2
  · exact faithful.agree_concat_inverse letters letter bounded
  · rw [List.length_append, List.length_append]
    exact bounded
  · omega

/-- A letter behind a word of a base set is represented in the next base set. -/
theorem represents_concat {level : ℕ} (level_lt : level < length)
    (complete : ∀ letters : List Letter, letters.length ≤ level →
      (BaseSet.ofLength anyon level : BaseSet α).Represents letters)
    {word : BaseWord α} (listed : word ∈ (BaseSet.ofLength anyon level).words) (letter : Letter) :
    (BaseSet.ofLength anyon (level + 1) : BaseSet α).Represents (word.letters ++ [letter]) := by
  have earlier {letters : List Letter} (bounded : letters.length ≤ level) :
      (BaseSet.ofLength anyon (level + 1) : BaseSet α).Represents letters := by
    rcases complete letters bounded with ⟨found, listed, key_eq⟩
    exact ⟨found, List.mem_append_left _ listed, key_eq⟩
  rcases List.mem_append.1 listed with settled | frontier
  · have shorter := BaseSet.length_settled settled
    apply earlier
    rw [List.length_append]
    exact shorter
  · have word_length := BaseSet.length_frontier frontier
    by_cases undoes : word.letters.getLast? = some letter.inverse
    · -- the letter takes the last one back, and an earlier word is left
      rcases List.getLast?_eq_some_iff.1 undoes with ⟨before, letters_eq⟩
      rw [letters_eq, List.length_append, List.length_singleton] at word_length
      rcases earlier (Nat.le_trans (Nat.le_succ _) (Nat.le_of_eq word_length)) with
        ⟨found, listed, key_eq⟩
      refine ⟨found, listed, ?_⟩
      rw [BaseSet.anyon_ofLength] at key_eq ⊢
      rw [key_eq, letters_eq, faithful.key_concat_inverse before letter (by omega)]
    · rcases BaseSet.exists_key_eq_of_push frontier undoes with ⟨found, represented, key_eq⟩
      refine ⟨found, represented, ?_⟩
      rw [BaseSet.anyon_ofLength] at key_eq ⊢
      rw [key_eq, BaseWord.ofLetters_concat, ← BaseSet.eq_ofLetters listed]

theorem represents {level : ℕ} (level_le : level ≤ length) {letters : List Letter}
    (bounded : letters.length ≤ level) :
    (BaseSet.ofLength anyon level : BaseSet α).Represents letters := by
  induction level generalizing letters with
  | zero =>
      rw [List.length_eq_zero_iff.1 (Nat.le_zero.1 bounded)]
      exact ⟨.empty, List.mem_singleton_self _, rfl⟩
  | succ level ih =>
      have complete (letters : List Letter) (bounded : letters.length ≤ level) :=
        ih (Nat.le_of_succ_le level_le) bounded
      rcases List.eq_nil_or_concat letters with rfl | ⟨before, letter, rfl⟩
      · rcases complete [] (Nat.zero_le level) with ⟨word, listed, key_eq⟩
        exact ⟨word, List.mem_append_left _ listed, key_eq⟩
      · -- the last letter is put behind the word that represents the others
        rw [List.concat_eq_append] at bounded ⊢
        rw [List.length_append, List.length_singleton] at bounded
        rcases complete before (Nat.le_of_succ_le_succ bounded) with ⟨word, listed, key_eq⟩
        have word_le := BaseSet.length_le listed
        rw [BaseSet.anyon_ofLength, BaseSet.eq_ofLetters listed] at key_eq
        have same := faithful.key_concat letter (by omega) (by omega) key_eq
        rcases faithful.represents_concat level_le complete listed letter with
          ⟨found, listed, found_eq⟩
        refine ⟨found, listed, ?_⟩
        rw [BaseSet.anyon_ofLength] at found_eq ⊢
        rw [found_eq, same]

end FaithfulKeys

/-- The words of a phase class are represented by one word, and none of them is shorter. -/
theorem BaseSet.exists_shortest {anyon : Anyon} {length : ℕ}
    {Agree : QubitMatrix α → QubitMatrix α → Prop} (faithful : FaithfulKeys anyon length Agree)
    {letters : List Letter} (bounded : letters.length ≤ length) :
    ∃ word : BaseWord α,
      (ofLength anyon length : BaseSet α).words.filter
          (·.key = (BaseWord.ofLetters (α := α) anyon letters).key) = [word] ∧
        ∀ other : List Letter,
          Agree (BaseWord.ofLetters anyon letters).matrix (BaseWord.ofLetters anyon other).matrix →
            word.letters.length ≤ other.length := by
  rcases faithful.represents (Nat.le_refl length) bounded with ⟨word, listed, key_eq⟩
  rw [anyon_ofLength] at key_eq
  refine ⟨word, ?_, ?_⟩
  · rw [← key_eq]
    exact BaseWord.filter_key_eq (nodup_keys anyon length) listed
  · intro other agree
    rcases Nat.lt_or_ge length other.length with long | short
    · exact Nat.le_trans (length_le listed) (Nat.le_of_lt long)
    · -- the base set of the other word's length has a representative, which is this one
      have same := (faithful.key_eq_iff bounded short).2 agree
      rcases faithful.represents short (Nat.le_refl other.length) with ⟨found, early, found_eq⟩
      rw [anyon_ofLength, ← same, ← key_eq] at found_eq
      have listed' := (isPrefix_words short).subset early
      rw [← BaseWord.eq_of_key_eq (nodup_keys anyon length) listed' listed found_eq]
      exact length_le early

/-- A word with two letters that cancel is represented by a word of one letter. -/
theorem BaseSet.exists_shortest_not_reduced :
    let letters : List Letter := [.first, .second, .secondInverse]
    letters.length ≤ 3 ∧ ∃ word : BaseWord ℝ,
      (ofLength .ising 3 : BaseSet ℝ).words.filter
          (·.key = (BaseWord.ofLetters (α := ℝ) .ising letters).key) = [word] ∧
        word.letters.length ≤ 1 := by
  intro letters
  have faithful := FaithfulKeys.ising 3
  rcases exists_shortest faithful (Nat.le_refl letters.length) with ⟨word, only, shortest⟩
  exact ⟨Nat.le_refl 3, word, only,
    shortest [.first] (faithful.agree_concat_inverse [.first] .secondInverse (Nat.le_refl 3))⟩

end Anyonic
