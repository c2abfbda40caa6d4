import Anyonic.Proofs.Search.Ising

/-!
# How base sets are laid out

A base set lists its words from the shortest to the longest, and whatever it holds behind the empty
word has grown from another of its words.  Both facts come from the way a level is taken in: all its
words extend words of the level before by one letter that does not undo the last.  A level that
takes in nothing leaves nothing to grow from, so that base sets of all larger lengths are the same.
Exact Ising anyons come to such a level, since their words have only twenty-four fingerprints.
-/

namespace Anyonic

variable {α : Type} [Scalar α]

/-- What is known of the words of a base set, of whatever length it is. -/
structure BaseSet.Orderly (set : BaseSet α) : Prop where
  head : set.words.head? = some .empty
  ordered : set.words.Pairwise fun earlier later => earlier.letters.length ≤ later.letters.length
  bounded : ∀ word ∈ set.words, word.letters.length ≤ set.maxLength
  /-- The frontier is where the words of full length begin. -/
  settled_le_iff : ∀ (index : ℕ) (word : BaseWord α), set.words[index]? = some word →
    (set.settled.length ≤ index ↔ word.letters.length = set.maxLength)
  reduced : ∀ word ∈ set.words, word.letters.IsChain fun letter next => next ≠ letter.inverse
  closed : ∀ word ∈ set.words, word.letters ≠ [] →
    ∃ shorter ∈ set.words, shorter.letters = word.letters.dropLast
  product : ∀ word ∈ set.words, word.matrix = word.letters.foldl
    (fun matrix letter => (LetterMatrices.ofAnyon set.anyon).get letter * matrix) .identity
  distinct : (set.words.map BaseWord.key).Nodup

theorem BaseWord.matrix_ofLetters (anyon : Anyon) (letters : List Letter) :
    (ofLetters anyon letters : BaseWord α).matrix = letters.foldl
      (fun matrix letter => (LetterMatrices.ofAnyon anyon).get letter * matrix) .identity := by
  induction letters using List.reverseRecOn with
  | nil => rfl
  | append_singleton letters letter ih => simp [ofLetters_concat, push, ih]

/-- Unitary multiples of one form have equal fingerprints. -/
theorem QubitMatrix.IsUnitary.phaseKey_eq_of_form {u v : QubitMatrix ℝ} {form : QuarterForm}
    {factor factor' : ℂ} (unitary : u.IsUnitary) (unitary' : v.IsUnitary)
    (u_eq : u.toMatrix = factor • form.toMatrix.map GaussianInt.toComplex)
    (v_eq : v.toMatrix = factor' • form.toMatrix.map GaussianInt.toComplex) :
    u.phaseKey = v.phaseKey := by
  rw [unitary.phaseKey_of_form u_eq, unitary'.phaseKey_of_form v_eq,
    unitary.norm_factor_eq unitary' u_eq v_eq]

namespace BaseSet

variable {anyon : Anyon} {length : ℕ} {word : BaseWord α}

theorem maxLength_ofLength (anyon : Anyon) (length : ℕ) :
    (ofLength anyon length : BaseSet α).maxLength = length := by
  induction length with
  | zero => rfl
  | succ length ih => simpa [ofLength, extend] using ih

/-- A word of a base set is the empty one or has grown from another word of the set. -/
theorem empty_or_push (listed : word ∈ (ofLength anyon length).words) :
    word = .empty ∨ ∃ parent ∈ (ofLength anyon length).words, ∃ letter,
      parent.letters.getLast? ≠ some letter.inverse ∧
        word = parent.push (.ofAnyon anyon) letter := by
  induction length with
  | zero => exact .inl (List.mem_singleton.1 listed)
  | succ length ih =>
      rcases List.mem_append.1 listed with settled | frontier
      · rcases ih settled with empty | ⟨parent, inSet, grown⟩
        · exact .inl empty
        · exact .inr ⟨parent, List.mem_append_left _ inSet, grown⟩
      · rcases exists_parent_of_mem_nextFrontier frontier with ⟨parent, inFrontier, grown⟩
        rw [anyon_ofLength] at grown
        have inSet : parent ∈ (ofLength anyon length).words := List.mem_append_right _ inFrontier
        exact .inr ⟨parent, List.mem_append_left _ inSet, grown⟩

theorem reduced_of_mem_words (listed : word ∈ (ofLength anyon length).words) :
    word.letters.IsChain fun letter next => next ≠ letter.inverse := by
  -- by induction on the letters, since a word is one letter longer than what it has grown from
  induction size_eq : word.letters.length generalizing word with
  | zero =>
      rw [List.length_eq_zero_iff.1 size_eq]
      exact .nil
  | succ size ih =>
      rcases empty_or_push listed with rfl | ⟨parent, inSet, letter, differs, rfl⟩
      · cases size_eq
      · have parent_length : parent.letters.length = size := by
          simpa [BaseWord.push] using size_eq
        apply (ih inSet parent_length).append (.singleton letter)
        intro last isLast next isNext undoes
        simp only [List.head?_cons, Option.mem_some_iff] at isNext
        apply differs
        rw [isNext, undoes, Letter.inverse_inverse]
        exact isLast

theorem ordered_words (anyon : Anyon) (length : ℕ) :
    (ofLength anyon length : BaseSet α).words.Pairwise
      fun earlier later => earlier.letters.length ≤ later.letters.length := by
  induction length with
  | zero => exact List.pairwise_singleton _ _
  | succ length ih =>
      refine List.pairwise_append.2 ⟨ih, ?_, ?_⟩
      · apply List.pairwise_of_forall_mem_list
        intro first inFrontier second inFrontier'
        have first_length : first.letters.length = length + 1 := length_frontier inFrontier
        have second_length : second.letters.length = length + 1 := length_frontier inFrontier'
        omega
      · intro earlier settled later inFrontier
        have earlier_length := length_le settled
        have later_length : later.letters.length = length + 1 := length_frontier inFrontier
        omega

theorem settled_le_index_iff {index : ℕ}
    (found : (ofLength anyon length : BaseSet α).words[index]? = some word) :
    (ofLength anyon length : BaseSet α).settled.length ≤ index ↔ word.letters.length = length := by
  rw [words, List.getElem?_append] at found
  split at found
  · have shorter := length_settled (List.mem_of_getElem? found)
    omega
  · have full := length_frontier (List.mem_of_getElem? found)
    omega

theorem orderly_ofLength (anyon : Anyon) (length : ℕ) :
    (ofLength anyon length : BaseSet α).Orderly where
  head := by
    have continued : (ofLength anyon 0 : BaseSet α).words <+: (ofLength anyon length).words :=
      isPrefix_words (Nat.zero_le length)
    rcases continued with ⟨grown, words_eq⟩
    rw [← words_eq]
    rfl
  ordered := ordered_words anyon length
  bounded := by
    intro word listed
    rw [maxLength_ofLength]
    exact length_le listed
  settled_le_iff := by
    intro index word found
    rw [maxLength_ofLength]
    exact settled_le_index_iff found
  reduced := by
    intro word listed
    exact reduced_of_mem_words listed
  closed := by
    intro word listed notEmpty
    rcases empty_or_push listed with rfl | ⟨parent, inSet, letter, -, rfl⟩
    · exact absurd rfl notEmpty
    · exact ⟨parent, inSet, by simp [BaseWord.push]⟩
  product := by
    intro word listed
    rw [anyon_ofLength, ← BaseWord.matrix_ofLetters, ← eq_ofLetters listed]
  distinct := nodup_keys anyon length

theorem nextFrontier_of_frontier_eq_nil {set : BaseSet α} (stuck : set.frontier = []) :
    set.nextFrontier = [] := by
  simp [nextFrontier, stuck]

/-- Where a level has taken in nothing, no later level does. -/
theorem words_eq_of_frontier_eq_nil {longer : ℕ}
    (stuck : (ofLength anyon length : BaseSet α).frontier = []) (longer_le : length ≤ longer) :
    (ofLength anyon longer : BaseSet α).frontier = [] ∧
      (ofLength anyon longer : BaseSet α).words = (ofLength anyon length).words := by
  induction longer_le with
  | refl => exact ⟨stuck, rfl⟩
  | step _ ih =>
      rcases ih with ⟨stuck, same⟩
      have next := nextFrontier_of_frontier_eq_nil stuck
      refine ⟨next, ?_⟩
      rw [← same]
      simp [ofLength, extend, words, next]

/-- The words of exact Ising anyons are told apart by their forms. -/
theorem length_words_ising_le (length : ℕ) :
    (ofLength .ising length : BaseSet ℝ).words.length ≤ 24 := by
  choose form factor matrix_eq using BaseWord.isQuarter_ofLetters
  have keys := nodup_keys (α := ℝ) .ising length
  have distinct : ((ofLength .ising length : BaseSet ℝ).words.map
      fun word => form word.letters).Nodup := by
    refine List.Nodup.map_on ?_ (keys.of_map _)
    intro first listed second listed' same
    have first_eq := matrix_eq first.letters
    rw [same] at first_eq
    have key_eq : (BaseWord.ofLetters (α := ℝ) .ising first.letters).key =
        (BaseWord.ofLetters (α := ℝ) .ising second.letters).key :=
      (BaseWord.isUnitary_ofLetters .ising first.letters).phaseKey_eq_of_form
        (BaseWord.isUnitary_ofLetters .ising second.letters) first_eq (matrix_eq second.letters)
    rw [← eq_ofLetters listed, ← eq_ofLetters listed'] at key_eq
    exact BaseWord.eq_of_key_eq keys listed listed' key_eq
  have bounded := distinct.length_le_card
  rw [List.length_map] at bounded
  exact bounded

/-- A level of exact Ising anyons takes in nothing. -/
theorem exists_length_words_ising_eq : ∃ length < 24,
    (ofLength .ising (length + 1) : BaseSet ℝ).words.length =
      (ofLength .ising length : BaseSet ℝ).words.length := by
  by_contra grows
  have larger : ∀ length ≤ 24, length < (ofLength .ising length : BaseSet ℝ).words.length := by
    intro length length_le
    induction length with
    | zero => exact Nat.one_pos
    | succ length ih =>
        have continued : (ofLength .ising length : BaseSet ℝ).words <+:
            (ofLength .ising (length + 1)).words := isPrefix_words (Nat.le_succ length)
        have longer := continued.length_le
        have earlier := ih (Nat.le_of_succ_le length_le)
        have differs : ¬(ofLength .ising (length + 1) : BaseSet ℝ).words.length =
            (ofLength .ising length : BaseSet ℝ).words.length := by
          intro same
          exact grows ⟨length, length_le, same⟩
        omega
  have bounded := length_words_ising_le 24
  have exceeded := larger 24 le_rfl
  omega

/--
A base set of any length is laid out in order, continues in the base set of the next length, and is
the last one to hold new words if the next is no larger.
-/
theorem words_ofLength (anyon : Anyon) (length : ℕ) :
    let set : BaseSet α := ofLength anyon length
    let next : BaseSet α := ofLength anyon (length + 1)
    set.anyon = anyon ∧ set.maxLength = length ∧ set.Orderly ∧ set.words <+: next.words ∧
      (next.words.length = set.words.length →
        ∀ longer, length ≤ longer → (ofLength anyon longer : BaseSet α).words = set.words) := by
  intro set next
  have continued : set.words <+: next.words := List.prefix_append _ _
  refine ⟨anyon_ofLength anyon length, maxLength_ofLength anyon length,
    orderly_ofLength anyon length, continued, ?_⟩
  intro same longer longer_le
  have words_eq : next.words = set.words := (continued.eq_of_length same.symm).symm
  have stuck : next.frontier = [] := List.append_right_eq_self.1 words_eq
  rcases Nat.eq_or_lt_of_le longer_le with rfl | longer_lt
  · rfl
  · exact (words_eq_of_frontier_eq_nil stuck longer_lt).2.trans words_eq

/-- Base sets of exact Ising anyons stop growing. -/
theorem words_ofLength_ising : ∃ length < 24,
    (ofLength .ising (length + 1) : BaseSet ℝ).words.length =
        (ofLength .ising length : BaseSet ℝ).words.length ∧
      ∀ longer, length ≤ longer →
        (ofLength .ising longer : BaseSet ℝ).words = (ofLength .ising length).words := by
  rcases exists_length_words_ising_eq with ⟨length, length_lt, same⟩
  rcases words_ofLength (α := ℝ) .ising length with ⟨-, -, -, -, stays⟩
  exact ⟨length, length_lt, same, stays same⟩

end BaseSet

end Anyonic
