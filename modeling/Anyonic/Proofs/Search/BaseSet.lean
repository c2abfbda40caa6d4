import Mathlib.Data.List.Induction
import Mathlib.Data.List.Nodup
import Std.Data.HashSet.Lemmas
import Anyonic.Search.BaseSet

/-!
# Base sets

The words of a base set are found level by level, and a word whose fingerprint has been met before
is dropped.  What a level takes in is said of a fold first, one offered word at a time: no
fingerprint is taken twice, and every word that was offered is taken or has its fingerprint among
those taken or known before.  The invariants of base sets follow by induction on the length.
-/

namespace Anyonic

namespace Letter

theorem mem_all (letter : Letter) : letter ∈ all := by
  cases letter <;> simp [all]

theorem inverse_inverse (letter : Letter) : letter.inverse.inverse = letter := by
  cases letter <;> rfl

end Letter

variable {α : Type} [Scalar α]

namespace BaseWord

variable {matrices : LetterMatrices α} {word : BaseWord α}

/-- The word of a list of letters. -/
def ofLetters (anyon : Anyon) (letters : List Letter) : BaseWord α :=
  letters.foldl (push (.ofAnyon anyon)) empty

theorem ofLetters_concat (anyon : Anyon) (letters : List Letter) (letter : Letter) :
    (ofLetters anyon (letters ++ [letter]) : BaseWord α) =
      (ofLetters anyon letters).push (.ofAnyon anyon) letter := by
  rw [ofLetters, List.foldl_append]
  rfl

theorem mem_extensions_iff {other : BaseWord α} :
    other ∈ word.extensions matrices ↔
      ∃ letter, word.letters.getLast? ≠ some letter.inverse ∧
        other = word.push matrices letter := by
  simp only [extensions, List.mem_map, List.mem_filter, Letter.mem_all, true_and, bne_iff_ne]
  refine exists_congr fun letter => and_congr_right fun _ => ?_
  exact eq_comm

theorem eq_of_key_eq {words : List (BaseWord α)} (distinct : (words.map key).Nodup)
    {first second : BaseWord α} (listed : first ∈ words) (listed' : second ∈ words)
    (same : first.key = second.key) : first = second :=
  List.inj_on_of_nodup_map distinct listed listed' same

/-- Where fingerprints are distinct, each of them finds one word. -/
theorem filter_key_eq {words : List (BaseWord α)} (distinct : (words.map key).Nodup)
    (listed : word ∈ words) : words.filter (·.key = word.key) = [word] := by
  induction words with
  | nil => cases listed
  | cons head rest ih =>
      rw [List.map_cons, List.nodup_cons] at distinct
      rcases List.mem_cons.1 listed with rfl | inRest
      · have none : rest.filter (·.key = word.key) = [] := by
          apply List.filter_eq_nil_iff.2
          intro other inRest
          rw [decide_eq_true_iff]
          intro same
          exact distinct.1 (same ▸ List.mem_map_of_mem inRest)
        simp [none]
      · have differs : head.key ≠ word.key := by
          intro same
          exact distinct.1 (same ▸ List.mem_map_of_mem inRest)
        simp [differs, ih distinct.2 inRest]

end BaseWord

namespace Growth

/-- What is known of a growth after some words have been offered to it. -/
structure Sound (known : List (List Int)) (offered : List (BaseWord α)) (growth : Growth α) :
    Prop where
  seen_iff : ∀ key, growth.seen.contains key ↔
    key ∈ known ∨ ∃ word ∈ growth.fresh, word.key = key
  mem_offered : ∀ word ∈ growth.fresh, word ∈ offered
  covered : ∀ word ∈ offered, word.key ∈ known ∨ ∃ found ∈ growth.fresh, found.key = word.key
  distinct : (growth.fresh.map BaseWord.key).Nodup
  new : ∀ word ∈ growth.fresh, word.key ∉ known

variable {known : List (List Int)} {offered : List (BaseWord α)} {growth : Growth α}

theorem sound_start (known : List (List Int)) :
    Sound known [] (⟨.ofList known, []⟩ : Growth α) where
  seen_iff := by simp
  mem_offered := by simp
  covered := by simp
  distinct := .nil
  new := by simp

theorem Sound.offer (sound : growth.Sound known offered) (word : BaseWord α) :
    (growth.offer word).Sound known (offered ++ [word]) := by
  by_cases seen : growth.seen.contains word.key
  · -- the word is dropped, since its class is represented
    have dropped : growth.offer word = growth := if_pos seen
    rw [dropped]
    refine ⟨sound.seen_iff, ?_, ?_, sound.distinct, sound.new⟩
    · intro found fresh
      exact List.mem_append_left _ (sound.mem_offered found fresh)
    · intro other listed
      rcases List.mem_append.1 listed with listed | listed
      · exact sound.covered other listed
      · rw [List.mem_singleton.1 listed]
        exact (sound.seen_iff word.key).1 seen
  · have taken : growth.offer word = ⟨growth.seen.insert word.key, word :: growth.fresh⟩ :=
      if_neg seen
    have unseen := mt (sound.seen_iff word.key).2 seen
    rw [not_or] at unseen
    rw [taken]
    refine ⟨?_, ?_, ?_, ?_, ?_⟩
    · intro key
      rw [Std.HashSet.contains_insert, Bool.or_eq_true, beq_iff_eq, sound.seen_iff,
        List.exists_mem_cons_iff]
      exact or_left_comm
    · intro found fresh
      rcases List.mem_cons.1 fresh with rfl | fresh
      · exact List.mem_append_right _ (List.mem_singleton_self _)
      · exact List.mem_append_left _ (sound.mem_offered found fresh)
    · intro other listed
      rw [List.exists_mem_cons_iff]
      rcases List.mem_append.1 listed with listed | listed
      · exact (sound.covered other listed).imp_right .inr
      · rw [List.mem_singleton.1 listed]
        exact .inr (.inl rfl)
    · rw [List.map_cons, List.nodup_cons, List.mem_map]
      exact ⟨unseen.2, sound.distinct⟩
    · intro found fresh
      rcases List.mem_cons.1 fresh with rfl | fresh
      · exact unseen.1
      · exact sound.new found fresh

theorem Sound.foldl_offer (sound : growth.Sound known offered) (words : List (BaseWord α)) :
    (words.foldl Growth.offer growth).Sound known (offered ++ words) := by
  induction words generalizing growth offered with
  | nil => rwa [List.append_nil]
  | cons word words ih =>
      rw [← List.singleton_append, ← List.append_assoc]
      exact ih (sound.offer word)

end Growth

namespace BaseSet

variable {set : BaseSet α} {anyon : Anyon} {length : ℕ}

section NextFrontier

/-- The growth from which the next frontier is read. -/
theorem exists_sound_nextFrontier (set : BaseSet α) :
    ∃ growth : Growth α, set.nextFrontier = growth.fresh.reverse ∧
      growth.Sound (set.words.map BaseWord.key)
        (set.frontier.flatMap (·.extensions (.ofAnyon set.anyon))) := by
  have started := Growth.sound_start (α := α) (set.words.map BaseWord.key)
  have grown := started.foldl_offer
    (set.frontier.flatMap fun word => word.extensions (LetterMatrices.ofAnyon set.anyon))
  exact ⟨_, rfl, grown⟩

theorem exists_parent_of_mem_nextFrontier {word : BaseWord α} (listed : word ∈ set.nextFrontier) :
    ∃ parent ∈ set.frontier, ∃ letter, parent.letters.getLast? ≠ some letter.inverse ∧
      word = parent.push (.ofAnyon set.anyon) letter := by
  rcases exists_sound_nextFrontier set with ⟨growth, fresh_eq, sound⟩
  rw [fresh_eq, List.mem_reverse] at listed
  rcases List.mem_flatMap.1 (sound.mem_offered word listed) with ⟨parent, inFrontier, extends'⟩
  exact ⟨parent, inFrontier, BaseWord.mem_extensions_iff.1 extends'⟩

/-- Whatever the frontier can grow is in the next base set, or represented there. -/
theorem exists_key_eq_of_push {parent : BaseWord α} (inFrontier : parent ∈ set.frontier)
    {letter : Letter} (reduced : parent.letters.getLast? ≠ some letter.inverse) :
    ∃ word ∈ set.extend.words, word.key = (parent.push (.ofAnyon set.anyon) letter).key := by
  rcases exists_sound_nextFrontier set with ⟨growth, fresh_eq, sound⟩
  have offered : parent.push (.ofAnyon set.anyon) letter ∈
      set.frontier.flatMap (·.extensions (.ofAnyon set.anyon)) :=
    List.mem_flatMap.2 ⟨parent, inFrontier, BaseWord.mem_extensions_iff.2 ⟨letter, reduced, rfl⟩⟩
  rcases sound.covered _ offered with known | ⟨word, fresh, key_eq⟩
  · rcases List.mem_map.1 known with ⟨word, listed, key_eq⟩
    exact ⟨word, List.mem_append_left _ listed, key_eq⟩
  · refine ⟨word, List.mem_append_right _ ?_, key_eq⟩
    rw [extend, fresh_eq]
    exact List.mem_reverse.2 fresh

theorem nodup_keys_extend (distinct : (set.words.map BaseWord.key).Nodup) :
    (set.extend.words.map BaseWord.key).Nodup := by
  rcases exists_sound_nextFrontier set with ⟨growth, fresh_eq, sound⟩
  change ((set.words ++ set.nextFrontier).map BaseWord.key).Nodup
  rw [fresh_eq, List.map_append, List.map_reverse, List.nodup_append, List.nodup_reverse]
  refine ⟨distinct, sound.distinct, ?_⟩
  intro key known other fresh
  rcases List.mem_map.1 (List.mem_reverse.1 fresh) with ⟨word, listed, rfl⟩
  rintro rfl
  exact sound.new word listed known

end NextFrontier

theorem anyon_ofLength (anyon : Anyon) (length : ℕ) :
    (ofLength anyon length : BaseSet α).anyon = anyon := by
  induction length with
  | zero => rfl
  | succ length ih => exact ih

theorem length_frontier {word : BaseWord α} (listed : word ∈ (ofLength anyon length).frontier) :
    word.letters.length = length := by
  induction length generalizing word with
  | zero =>
      rw [List.mem_singleton.1 listed]
      rfl
  | succ length ih =>
      rcases exists_parent_of_mem_nextFrontier listed with ⟨parent, inFrontier, letter, -, rfl⟩
      rw [BaseWord.push, List.length_append, ih inFrontier]
      rfl

theorem length_settled {word : BaseWord α} (listed : word ∈ (ofLength anyon length).settled) :
    word.letters.length < length := by
  induction length generalizing word with
  | zero => cases listed
  | succ length ih =>
      rcases List.mem_append.1 listed with settled | frontier
      · exact Nat.lt_succ_of_lt (ih settled)
      · rw [length_frontier frontier]
        exact Nat.lt_succ_self length

theorem length_le {word : BaseWord α} (listed : word ∈ (ofLength anyon length).words) :
    word.letters.length ≤ length := by
  rcases List.mem_append.1 listed with settled | frontier
  · exact Nat.le_of_lt (length_settled settled)
  · exact Nat.le_of_eq (length_frontier frontier)

/-- The matrix of a word is the product of its letters' matrices. -/
theorem eq_ofLetters {word : BaseWord α} (listed : word ∈ (ofLength anyon length).words) :
    word = .ofLetters anyon word.letters := by
  induction length generalizing word with
  | zero =>
      rw [List.mem_singleton.1 listed]
      rfl
  | succ length ih =>
      rcases List.mem_append.1 listed with settled | frontier
      · exact ih settled
      · rcases exists_parent_of_mem_nextFrontier frontier with ⟨parent, inFrontier, letter, -, rfl⟩
        have own := ih (List.mem_append_right _ inFrontier)
        rw [anyon_ofLength, BaseWord.push, BaseWord.ofLetters_concat, ← own]
        rfl

theorem isPrefix_words {level : ℕ} (level_le : level ≤ length) :
    (ofLength anyon level : BaseSet α).words <+: (ofLength anyon length).words := by
  induction level_le with
  | refl => exact List.prefix_rfl
  | step _ ih => exact ih.trans (List.prefix_append _ _)

theorem nodup_keys (anyon : Anyon) (length : ℕ) :
    ((ofLength anyon length : BaseSet α).words.map BaseWord.key).Nodup := by
  induction length with
  | zero => exact List.nodup_singleton _
  | succ length ih => exact nodup_keys_extend ih

end BaseSet

/--
Fingerprints of words up to a length that tell exactly which of their matrices agree, where letters
respect agreement and are undone by their inverses, as they do and are up to a global phase.
-/
structure FaithfulKeys (anyon : Anyon) (length : ℕ)
    (Agree : QubitMatrix α → QubitMatrix α → Prop) : Prop where
  key_eq_iff {first second : List Letter} : first.length ≤ length → second.length ≤ length →
    ((BaseWord.ofLetters (α := α) anyon first).key =
        (BaseWord.ofLetters (α := α) anyon second).key ↔
      Agree (BaseWord.ofLetters anyon first).matrix (BaseWord.ofLetters anyon second).matrix)
  agree_concat {first second : List Letter} (letter : Letter) :
    first.length < length → second.length < length →
      Agree (BaseWord.ofLetters anyon first).matrix (BaseWord.ofLetters anyon second).matrix →
        Agree (BaseWord.ofLetters anyon (first ++ [letter])).matrix
          (BaseWord.ofLetters anyon (second ++ [letter])).matrix
  agree_concat_inverse (letters : List Letter) (letter : Letter) : letters.length + 2 ≤ length →
    Agree (BaseWord.ofLetters anyon (letters ++ [letter.inverse] ++ [letter])).matrix
      (BaseWord.ofLetters anyon letters).matrix

end Anyonic
