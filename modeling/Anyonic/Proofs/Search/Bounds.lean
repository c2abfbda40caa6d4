import Anyonic.Proofs.Search.Nearest

/-!
# The bounds of a search

The length of words is checked when a search comes to it and not before, so that a request beyond
the limit is refused only if it has to be followed there: if no word up to the limit is within the
tolerance.  Of two requests that are answered, one that starts later, goes further and asks for a
closer word stops no earlier than the other, and what it finds is at least as close.
-/

namespace Anyonic.Search

section Stopping

variable {α : Type} [Scalar α] {anyon : Anyon} {target : QubitMatrix α} {tolerance : α}

/-- Longer words only help to meet a tolerance. -/
theorem Meets.longer {length longer : ℕ} (le : length ≤ longer)
    (meets : Meets target tolerance (BaseSet.ofLength anyon length)) :
    Meets target tolerance (BaseSet.ofLength anyon longer) := by
  rcases meets with ⟨word, listed, near⟩
  exact ⟨word, (BaseSet.isPrefix_words le).subset listed, near⟩

theorem Meets.looser [LawfulScalar α] {looser : α} {set : BaseSet α} (le : tolerance ≤ looser)
    (meets : Meets target tolerance set) : Meets target looser set := by
  rcases meets with ⟨word, listed, near⟩
  exact ⟨word, listed, LawfulScalar.le_trans near le⟩

namespace StopsAt

variable {bounds wider : SearchBounds} {length later : ℕ}

theorem longer (stops : StopsAt anyon target tolerance bounds length)
    (met : Meets target tolerance (BaseSet.ofLength anyon length)) {max : ℕ}
    (le : bounds.max ≤ max) : StopsAt anyon target tolerance ⟨bounds.seed, max⟩ length where
  seed_le := stops.seed_le
  le_max := stops.le_max.trans le
  far := stops.far
  near _ := met

/-- Asking for more makes no search stop earlier. -/
theorem le_of_wider [LawfulScalar α] {stricter : α}
    (stops : StopsAt anyon target tolerance bounds length)
    (stops' : StopsAt anyon target stricter wider later) (le : stricter ≤ tolerance)
    (seed_le : bounds.seed ≤ wider.seed) (max_le : bounds.max ≤ wider.max) : length ≤ later := by
  by_contra earlier
  have later_lt : later < length := Nat.lt_of_not_le earlier
  apply stops.far later (seed_le.trans stops'.seed_le) later_lt
  apply Meets.looser le
  apply stops'.near
  exact later_lt.trans_le (stops.le_max.trans max_le)

end StopsAt

end Stopping

variable {α : Type} [Scalar α]

/--
A search that can be answered: its bounds are in order, its first base set is allowed, and it never
has to look at a base set that is not.
-/
structure Answerable (anyon : Anyon) (target : QubitMatrix α) (tolerance : α)
    (bounds : SearchBounds) : Prop where
  ordered : bounds.seed ≤ bounds.max
  started : bounds.seed ≤ maxSearchLength
  finished : bounds.max ≤ maxSearchLength ∨
    Meets target tolerance (BaseSet.ofLength anyon maxSearchLength)

variable {anyon : Anyon} {target : QubitMatrix α} {tolerance : α} {bounds : SearchBounds}

omit [Scalar α] in
theorem exists_checkLength_eq_error {length : ℕ} (long : maxSearchLength < length) :
    ∃ reason, (checkLength length : Except (CompileError α) Unit) =
      .error (.validation reason) :=
  ⟨_, if_pos long⟩

theorem exists_approximate_eq_error_of_reversed (reversed : bounds.max < bounds.seed) :
    ∃ reason, approximate anyon target tolerance bounds = .error (.validation reason) := by
  rw [approximate_eq]
  unfold approximateByWords
  rw [if_pos reversed]
  exact ⟨_, rfl⟩

theorem exists_approximate_eq_error_of_long_seed (ordered : bounds.seed ≤ bounds.max)
    (long : maxSearchLength < bounds.seed) :
    ∃ reason, approximate anyon target tolerance bounds = .error (.validation reason) := by
  rcases exists_checkLength_eq_error (α := α) long with ⟨reason, refused⟩
  refine ⟨reason, ?_⟩
  rw [approximate_eq]
  unfold approximateByWords BaseSet.ofLength?
  rw [if_neg (Nat.not_lt.2 ordered), refused]
  rfl

variable [LinearScalar α]

/-- A search that finds nothing up to the limit is refused when it gets there. -/
theorem exists_continueFrom_eq_error {seed max : ℕ} (started : seed ≤ maxSearchLength)
    (beyond : maxSearchLength < max)
    (far : ¬Meets target tolerance (BaseSet.ofLength anyon maxSearchLength)) :
    ∃ reason, continueFrom target tolerance (max - seed) (BaseSet.ofLength anyon seed)
        (closest target none (BaseSet.ofLength anyon seed).words) =
      .error (.validation reason) := by
  induction distance_eq : maxSearchLength - seed generalizing seed with
  | zero =>
      have at_limit : seed = maxSearchLength := by omega
      subst at_limit
      rcases exists_checkLength_eq_error (α := α) (Nat.lt_succ_self maxSearchLength) with
        ⟨reason, refused⟩
      refine ⟨reason, ?_⟩
      rw [show max - maxSearchLength = max - maxSearchLength - 1 + 1 by omega,
        continueFrom_of_not_within (mt (within_closest_iff maxSearchLength).1 far),
        BaseSet.extend?, BaseSet.maxLength_ofLength, refused]
      rfl
  | succ distance ih =>
      have far_here : ¬Meets target tolerance (BaseSet.ofLength anyon seed) :=
        fun near => far (near.longer started)
      have seed_lt : seed + 1 ≤ maxSearchLength := by omega
      rcases ih seed_lt (by omega) with ⟨reason, refused⟩
      refine ⟨reason, ?_⟩
      rw [show max - seed = max - (seed + 1) + 1 by omega,
        continueFrom_of_not_within (mt (within_closest_iff seed).1 far_here),
        extend?_ofLength seed_lt]
      exact (congrArg _ (closest_extend _)).trans refused

theorem exists_approximate_eq_error_of_far (ordered : bounds.seed ≤ bounds.max)
    (started : bounds.seed ≤ maxSearchLength) (beyond : maxSearchLength < bounds.max)
    (far : ¬Meets target tolerance (BaseSet.ofLength anyon maxSearchLength)) :
    ∃ reason, approximate anyon target tolerance bounds = .error (.validation reason) := by
  rcases exists_continueFrom_eq_error started beyond far with ⟨reason, refused⟩
  refine ⟨reason, ?_⟩
  rw [approximate_eq]
  unfold approximateByWords
  rw [if_neg (Nat.not_lt.2 ordered), ofLength?_eq started]
  change (continueFrom _ _ _ _ _ >>= _) = _
  rw [refused]
  rfl

theorem exists_approximate_eq_error (unanswerable : ¬Answerable anyon target tolerance bounds) :
    ∃ reason, approximate anyon target tolerance bounds = .error (.validation reason) := by
  rcases Nat.lt_or_ge bounds.max bounds.seed with reversed | ordered
  · exact exists_approximate_eq_error_of_reversed reversed
  · rcases Nat.lt_or_ge maxSearchLength bounds.seed with long | started
    · exact exists_approximate_eq_error_of_long_seed ordered long
    · rcases Nat.lt_or_ge maxSearchLength bounds.max with beyond | allowed
      · apply exists_approximate_eq_error_of_far ordered started beyond
        intro near
        exact unanswerable ⟨ordered, started, .inr near⟩
      · exact absurd ⟨ordered, started, .inl allowed⟩ unanswerable

namespace Answerable

/-- A search that can be answered stops, at the limit or before. -/
theorem exists_continueFrom_eq (answerable : Answerable anyon target tolerance bounds) :
    ∃ length, StopsAt anyon target tolerance bounds length ∧
      continueFrom target tolerance (bounds.max - bounds.seed) (BaseSet.ofLength anyon bounds.seed)
          (closest target none (BaseSet.ofLength anyon bounds.seed).words) =
        .ok (closest target none (BaseSet.ofLength anyon length).words) := by
  rcases Nat.lt_or_ge maxSearchLength bounds.max with beyond | allowed
  · -- a search to the limit meets the tolerance, and more letters do not change it
    have near := answerable.finished.resolve_left (Nat.not_le.2 beyond)
    rcases Search.exists_continueFrom_eq anyon target tolerance answerable.started le_rfl with
      ⟨length, stops, finished⟩
    have met : Meets target tolerance (BaseSet.ofLength anyon length) := by
      rcases Nat.eq_or_lt_of_le stops.le_max with at_limit | earlier
      · rw [at_limit]
        exact near
      · exact stops.near earlier
    refine ⟨length, stops.longer met beyond.le, ?_⟩
    have further := continueFrom_longer finished ((within_closest_iff length).2 met)
      (bounds.max - maxSearchLength)
    have started := answerable.started
    rwa [show maxSearchLength - bounds.seed + (bounds.max - maxSearchLength) =
      bounds.max - bounds.seed by omega] at further
  · exact Search.exists_continueFrom_eq anyon target tolerance answerable.ordered allowed

theorem exists_approximate_eq_ok (answerable : Answerable anyon target tolerance bounds) :
    ∃ length index word, StopsAt anyon target tolerance bounds length ∧
      FirstNearest target (BaseSet.ofLength anyon length).words index word ∧
      approximate anyon target tolerance bounds = .ok (measured target word) := by
  rcases answerable.exists_continueFrom_eq with ⟨length, stops, finished⟩
  rcases exists_closest_ofLength target anyon length with ⟨index, word, nearest, closest_eq⟩
  rw [closest_eq] at finished
  refine ⟨length, index, word, stops, nearest, ?_⟩
  exact approximate_eq_ok_iff.2
    ⟨answerable.ordered, _, ofLength?_eq answerable.started, finished⟩

theorem of_eq_ok {found : Approximation α}
    (approximated : approximate anyon target tolerance bounds = .ok found) :
    Answerable anyon target tolerance bounds := by
  by_contra unanswerable
  rcases exists_approximate_eq_error unanswerable with ⟨reason, refused⟩
  cases approximated.symm.trans refused

end Answerable

/--
Every search is answered or refused.  It is refused if its bounds are reversed, if it starts beyond
the limit, and if it goes beyond the limit while no word up to there is within the tolerance; going
beyond the limit is no reason by itself.
-/
theorem approximate_outcome (anyon : Anyon) (target : QubitMatrix α) (tolerance : α)
    (bounds : SearchBounds) :
    ((∃ found, approximate anyon target tolerance bounds = .ok found) ↔
      Answerable anyon target tolerance bounds) ∧
    ((∃ reason, approximate anyon target tolerance bounds = .error (.validation reason)) ↔
      ¬Answerable anyon target tolerance bounds) := by
  refine ⟨⟨?_, ?_⟩, ⟨?_, exists_approximate_eq_error⟩⟩
  · rintro ⟨found, approximated⟩
    exact .of_eq_ok approximated
  · intro answerable
    rcases answerable.exists_approximate_eq_ok with ⟨_, _, word, -, -, approximated⟩
    exact ⟨_, approximated⟩
  · rintro ⟨reason, refused⟩ answerable
    rcases answerable.exists_approximate_eq_ok with ⟨_, _, word, -, -, approximated⟩
    cases approximated.symm.trans refused

/-- A search may end at the limit, and beyond it if it stops before, but it may not start there. -/
theorem approximate_outcome_around_limit :
    (∃ found, approximate .fibonacci (.hadamard : QubitMatrix Float) 0.0 ⟨3, 14⟩ = .ok found) ∧
      (∃ found, approximate .fibonacci (.hadamard : QubitMatrix Float) (1.0 / 0.0) ⟨3, 20⟩ =
        .ok found) ∧
      ∃ reason, approximate .fibonacci (.hadamard : QubitMatrix Float) 0.0 ⟨15, 20⟩ =
        .error (.validation reason) := by
  refine ⟨?_, ?_, ?_⟩
  · apply (approximate_outcome .fibonacci .hadamard 0.0 ⟨3, 14⟩).1.2
    exact ⟨by decide, by decide, .inl (by decide)⟩
  · apply (approximate_outcome .fibonacci .hadamard (1.0 / 0.0) ⟨3, 20⟩).1.2
    refine ⟨by decide, by decide, .inr ⟨.empty, ?_, ?_⟩⟩
    · exact List.mem_of_mem_head? (BaseSet.orderly_ofLength .fibonacci maxSearchLength).head
    · exact Double.le_infinity (QubitMatrix.distance_le_self _ _)
  · apply (approximate_outcome .fibonacci .hadamard 0.0 ⟨15, 20⟩).2.2
    intro answerable
    exact absurd answerable.started (by decide)

/-- A search for the identity stops at the empty word, so that its bound is never compared with the
limit. -/
theorem approximate_identity_beyond_limit :
    maxSearchLength < 15 ∧
      approximate .ising (.identity : QubitMatrix ℝ) 0 ⟨0, 15⟩ = .ok ⟨[], .identity, 0⟩ := by
  have agrees := QubitMatrix.isUnitary_identity.distance_self
  have found : closest (.identity : QubitMatrix ℝ) none (BaseSet.ofLength .ising 0).words =
      some ⟨[], .identity, 0⟩ := by
    rw [← agrees]
    rfl
  refine ⟨by decide, approximate_eq_ok_iff.2 ⟨by decide, _, ofLength?_eq (by decide), ?_⟩⟩
  rw [found]
  exact continueFrom_of_within (within_some.2 le_rfl) _

/--
Of two searches for one target, the one that starts no earlier, ends no earlier and has no larger
tolerance finds a word that is at least as close.
-/
theorem error_le_of_wider {stricter : α} {wider : SearchBounds} {found found' : Approximation α}
    (approximated : approximate anyon target tolerance bounds = .ok found)
    (approximated' : approximate anyon target stricter wider = .ok found')
    (le : stricter ≤ tolerance) (seed_le : bounds.seed ≤ wider.seed)
    (max_le : bounds.max ≤ wider.max) : found'.error ≤ found.error := by
  rcases (Answerable.of_eq_ok approximated).exists_approximate_eq_ok with
    ⟨length, index, word, stops, nearest, same⟩
  rcases (Answerable.of_eq_ok approximated').exists_approximate_eq_ok with
    ⟨later, index', word', stops', nearest', same'⟩
  cases approximated.symm.trans same
  cases approximated'.symm.trans same'
  have listed := List.mem_of_getElem? nearest.found
  apply nearest'.nearest
  exact (BaseSet.isPrefix_words (stops.le_of_wider stops' le seed_le max_le)).subset listed

theorem error_le_of_wider_hadamard : (0.001 : Float) ≤ 0.5 ∧
    ∃ found found' : Approximation Float,
      approximate .fibonacci .hadamard 0.5 ⟨0, 2⟩ = .ok found ∧
      approximate .fibonacci .hadamard 0.001 ⟨1, 14⟩ = .ok found' ∧
      found'.error ≤ found.error := by
  have le : (0.001 : Float) ≤ 0.5 := by decide +kernel
  have answerable : Answerable .fibonacci (.hadamard : QubitMatrix Float) 0.5 ⟨0, 2⟩ :=
    ⟨by decide, by decide, .inl (by decide)⟩
  have answerable' : Answerable .fibonacci (.hadamard : QubitMatrix Float) 0.001 ⟨1, 14⟩ :=
    ⟨by decide, by decide, .inl (by decide)⟩
  rcases answerable.exists_approximate_eq_ok with ⟨_, _, word, -, -, approximated⟩
  rcases answerable'.exists_approximate_eq_ok with ⟨_, _, word', -, -, approximated'⟩
  exact ⟨le, _, _, approximated, approximated',
    error_le_of_wider approximated approximated' le (by decide) (by decide)⟩

end Anyonic.Search
