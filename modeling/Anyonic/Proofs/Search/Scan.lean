import Mathlib.Data.List.Basic
import Anyonic.Proofs.Basic
import Anyonic.Proofs.Scalar.Laws
import Anyonic.Search.Nearest

/-!
# Scanning base sets

A search keeps the place of the best word and looks at each base set only from the place where the
last one ended.  Base sets continue each other, so that a place stays that of the same word in all
later base sets.  The search is therefore the same as one that carries the word itself from base set
to base set and compares it with the words that are new, and it is this second form that is
reasoned about: what is found is measured against the target, more letters do not change what is
within the tolerance, and a larger tolerance is met no later.
-/

namespace Anyonic

variable {α : Type} [Scalar α]

namespace BaseSet

theorem words_extend (set : BaseSet α) : set.extend.words = set.words ++ set.extend.frontier :=
  rfl

theorem eq_extend_of_extend? {set next : BaseSet α} (extended : set.extend? = .ok next) :
    next = set.extend := by
  rcases bind_eq_ok_iff.1 extended with ⟨-, -, same⟩
  exact (Except.ok.inj same).symm

end BaseSet

namespace Search

section Words

/-- Of the best word so far and another one, the closer; the earlier one if both are as close. -/
def closer (target : QubitMatrix α) (best : Option (Approximation α)) (word : BaseWord α) :
    Option (Approximation α) :=
  let error := target.distance word.matrix
  match best with
  | none => some ⟨word.letters, word.matrix, error⟩
  | some found => if error < found.error then some ⟨word.letters, word.matrix, error⟩ else best

/-- The closest of the best word so far and a list of words. -/
def closest (target : QubitMatrix α) (best : Option (Approximation α))
    (words : List (BaseWord α)) : Option (Approximation α) :=
  words.foldl (closer target) best

/-- Whether a word within the tolerance has been found. -/
def within (tolerance : α) (best : Option (Approximation α)) : Bool :=
  best.any fun found => found.error ≤ tolerance

/--
Continue a search whose best word so far is `best` into the base sets after `set`, at most
`remaining` of them.
-/
def continueFrom (target : QubitMatrix α) (tolerance : α) :
    (remaining : ℕ) → BaseSet α → Option (Approximation α) →
      Except (CompileError α) (Option (Approximation α))
  | 0, _, best => .ok best
  | remaining + 1, set, best =>
      if within tolerance best then .ok best
      else do
        let next ← set.extend?
        continueFrom target tolerance remaining next (closest target best next.frontier)

/-- The word closest to a target, by a search that carries the words themselves. -/
def approximateByWords (anyon : Anyon) (target : QubitMatrix α) (tolerance : α)
    (bounds : SearchBounds) : Except (CompileError α) (Approximation α) := do
  if bounds.max < bounds.seed then
    throw (.validation s!"seed length {bounds.seed} exceeds max length {bounds.max}")
  let set ← BaseSet.ofLength? anyon bounds.seed
  let best ← continueFrom target tolerance (bounds.max - bounds.seed) set
    (closest target none set.words)
  match best with
  | some approximation => return approximation
  | none => throw (.validation "approximation base set is empty")

end Words

section Places

variable (target : QubitMatrix α) (tolerance : α) {set : BaseSet α} {best : Option (Candidate α)}

/-- The place of the best candidate is one in the base set. -/
def Placed (set : BaseSet α) (best : Option (Candidate α)) : Prop :=
  ∀ found ∈ best, found.index < set.words.length

omit [Scalar α] in
theorem lookUp_some {found : Candidate α} {word : BaseWord α}
    (placed : set.words[found.index]? = some word) :
    lookUp set (some found) = some ⟨word.letters, word.matrix, found.error⟩ := by
  simp [lookUp, placed]

/-- Looking at one word keeps its place exactly if the word itself would be kept. -/
theorem lookUp_improve (placed : Placed set best) {word : BaseWord α} {place : ℕ}
    (listed : set.words[place]? = some word) :
    Placed set (improve target best (word, place)) ∧
      lookUp set (improve target best (word, place)) =
        closer target (lookUp set best) word := by
  have inside : place < set.words.length := (List.getElem?_eq_some_iff.1 listed).1
  cases best with
  | none =>
      refine ⟨?_, lookUp_some listed⟩
      rintro found ⟨⟩
      exact inside
  | some found =>
      have old := List.getElem?_eq_getElem (placed found rfl)
      rw [lookUp_some old]
      simp only [improve, closer]
      split
      · refine ⟨?_, lookUp_some listed⟩
        rintro found ⟨⟩
        exact inside
      · exact ⟨placed, lookUp_some old⟩

theorem lookUp_foldl_improve (placed : Placed set best) {entries : List (BaseWord α × ℕ)}
    (listed : ∀ entry ∈ entries, set.words[entry.2]? = some entry.1) :
    Placed set (entries.foldl (improve target) best) ∧
      lookUp set (entries.foldl (improve target) best) =
        closest target (lookUp set best) (entries.map Prod.fst) := by
  induction entries generalizing best with
  | nil => exact ⟨placed, rfl⟩
  | cons entry entries ih =>
      rcases List.forall_mem_cons.1 listed with ⟨head, tail⟩
      rcases lookUp_improve target placed head with ⟨placed', lookUp_eq⟩
      rcases ih placed' tail with ⟨placed'', lookUp_eq'⟩
      refine ⟨placed'', lookUp_eq'.trans ?_⟩
      rw [lookUp_eq]
      rfl

/-- A scan finds the closest of the best word so far and the words that it looks at. -/
theorem lookUp_scan (placed : Placed set best) (scanned : ℕ) :
    Placed set (scan target set scanned best) ∧
      lookUp set (scan target set scanned best) =
        closest target (lookUp set best) (set.words.drop scanned) := by
  have words_eq : (set.words.zipIdx.drop scanned).map Prod.fst = set.words.drop scanned := by
    rw [List.map_drop, List.zipIdx_map_fst]
  rw [scan, ← words_eq]
  apply lookUp_foldl_improve target placed
  intro entry listed
  exact List.mem_zipIdx_iff_getElem?.1 (List.mem_of_mem_drop listed)

/-- A place stays that of the same word when a base set is extended. -/
theorem lookUp_extend (placed : Placed set best) :
    Placed set.extend best ∧ lookUp set.extend best = lookUp set best := by
  rw [Placed, lookUp, BaseSet.words_extend]
  constructor
  · intro found isBest
    rw [List.length_append]
    exact Nat.lt_add_right _ (placed found isBest)
  · cases best with
    | none => rfl
    | some found =>
        rw [Option.bind_some, List.getElem?_append_left (placed found rfl)]
        rfl

theorem isClose_eq_within (placed : Placed set best) :
    isClose tolerance best = within tolerance (lookUp set best) := by
  cases best with
  | none => rfl
  | some found =>
      rw [lookUp_some (List.getElem?_eq_getElem (placed found rfl))]
      rfl

/-- What a search notes on its way through the base sets is what it would carry. -/
theorem map_scanOnwards (placed : Placed set best) (remaining : ℕ) :
    (scanOnwards target tolerance remaining set best).map (fun last => lookUp last.1 last.2) =
      continueFrom target tolerance remaining set (lookUp set best) := by
  induction remaining generalizing set best with
  | zero => rfl
  | succ remaining ih =>
      rw [scanOnwards, continueFrom, isClose_eq_within tolerance placed]
      split
      · rfl
      · cases extended : set.extend? with
        | error error => rfl
        | ok next =>
            obtain rfl := BaseSet.eq_extend_of_extend? extended
            rcases lookUp_extend placed with ⟨placed', lookUp_eq⟩
            rcases lookUp_scan target placed' set.size with ⟨placed'', lookUp_eq'⟩
            have new : set.extend.words.drop set.size = set.extend.frontier := by
              rw [BaseSet.words_extend, BaseSet.size, List.drop_left]
            rw [lookUp_eq, new] at lookUp_eq'
            change (scanOnwards target tolerance remaining set.extend _).map _ = _
            rw [ih placed'', lookUp_eq']
            rfl

end Places

/-- A search by places is a search by words. -/
theorem approximate_eq (anyon : Anyon) (target : QubitMatrix α) (tolerance : α)
    (bounds : SearchBounds) :
    approximate anyon target tolerance bounds =
      approximateByWords anyon target tolerance bounds := by
  unfold approximate approximateByWords
  simp only
  split
  · rfl
  · congr 1
    funext first
    have none_placed : Placed first (none : Option (Candidate α)) := by
      rintro found ⟨⟩
    rcases lookUp_scan target none_placed 0 with ⟨placed, lookUp_eq⟩
    have words_eq := map_scanOnwards target tolerance placed (bounds.max - bounds.seed)
    rw [lookUp_eq, List.drop_zero] at words_eq
    change _ = continueFrom target tolerance _ first (closest target (lookUp first none) _) >>= _
    rw [← words_eq]
    cases scanOnwards target tolerance (bounds.max - bounds.seed) first
      (scan target first 0 none) <;> rfl

end Search

theorem QubitMatrix.distance_le_self [LawfulScalar α] (u v : QubitMatrix α) :
    u.distance v ≤ u.distance v := by
  unfold distance
  simp only
  split
  · rename_i above
    exact LawfulScalar.le_self_of_le above
  · exact LawfulScalar.zero_le_zero

theorem QubitMatrix.distance_nonneg {α : Type} [OrderedScalar α] (u v : QubitMatrix α) :
    0 ≤ u.distance v := by
  unfold distance
  simp only
  split
  · rename_i above
    exact OrderedScalar.zero_le_noise.trans above
  · exact OrderedScalar.zero_eq.ge

/-- The error of an approximation is its distance from the target. -/
def Approximation.Measures (target : QubitMatrix α) (found : Approximation α) : Prop :=
  found.error = target.distance found.matrix

namespace Search

section Measures

variable {target : QubitMatrix α} {tolerance : α}

omit [Scalar α] in
theorem settles_checkLength (length : ℕ) :
    Settles (checkLength length : Except (CompileError α) Unit) fun _ => True := by
  unfold checkLength
  split <;> trivial

theorem closest_measures {best : Option (Approximation α)}
    (measured : ∀ found ∈ best, found.Measures target) (words : List (BaseWord α)) :
    ∀ found ∈ closest target best words, found.Measures target := by
  induction words generalizing best with
  | nil => exact measured
  | cons word words ih =>
      apply ih
      intro found chosen
      unfold closer at chosen
      simp only at chosen
      split at chosen
      · cases chosen
        rfl
      · split at chosen
        · cases chosen
          rfl
        · exact measured found chosen

theorem settles_continueFrom {remaining : ℕ} {set : BaseSet α} {best : Option (Approximation α)}
    (measured : ∀ found ∈ best, found.Measures target) :
    Settles (continueFrom target tolerance remaining set best) fun best =>
      ∀ found ∈ best, found.Measures target := by
  induction remaining generalizing set best with
  | zero => exact measured
  | succ remaining ih =>
      unfold continueFrom
      split
      · exact measured
      · have extended : Settles set.extend? fun _ => True := by
          apply (settles_checkLength _).bind
          intro _ _ _
          trivial
        apply extended.bind
        intro next _ _
        exact ih (closest_measures measured _)

theorem settles_approximate {anyon : Anyon} {bounds : SearchBounds} :
    Settles (approximate anyon target tolerance bounds) (·.Measures target) := by
  rw [approximate_eq]
  unfold approximateByWords
  simp only
  split
  · trivial
  · have started : Settles (BaseSet.ofLength? anyon bounds.seed :
        Except (CompileError α) (BaseSet α)) fun _ => True := by
      apply (settles_checkLength _).bind
      intro _ _ _
      trivial
    apply started.bind
    intro set _ _
    have first : ∀ found ∈ closest target none set.words, found.Measures target := by
      apply closest_measures
      simp
    apply (settles_continueFrom first).bind
    intro best _ measured
    cases best with
    | none => trivial
    | some found => exact measured found rfl

theorem settles_approximateGate [Numeral α] {anyon : Anyon} {gate : Gate α}
    {bounds : SearchBounds} :
    Settles (approximateGate anyon gate tolerance bounds) fun found =>
      ∃ target, gate.matrix? = some target ∧ found.Measures target := by
  unfold approximateGate
  split
  · rename_i target target_eq
    apply settles_approximate.mono
    intro found measured
    exact ⟨target, target_eq, measured⟩
  · trivial

end Measures

section Budget

variable {target : QubitMatrix α} {tolerance looser : α} {remaining : ℕ} {set : BaseSet α}
  {best result : Option (Approximation α)}

theorem within_some {found : Approximation α} :
    within tolerance (some found) ↔ found.error ≤ tolerance :=
  decide_eq_true_iff

theorem within_looser [LawfulScalar α] (le : tolerance ≤ looser) (near : within tolerance best) :
    within looser best := by
  cases best with
  | none => cases near
  | some found => exact within_some.2 (LawfulScalar.le_trans (within_some.1 near) le)

theorem continueFrom_of_within (near : within tolerance best) (remaining : ℕ) :
    continueFrom target tolerance remaining set best = .ok best := by
  cases remaining with
  | zero => rfl
  | succ remaining => exact if_pos near

theorem continueFrom_of_not_within (far : ¬within tolerance best) (remaining : ℕ) :
    continueFrom target tolerance (remaining + 1) set best =
      set.extend? >>= fun next =>
        continueFrom target tolerance remaining next (closest target best next.frontier) :=
  if_neg far

/-- A search that has met the tolerance never gets to further lengths. -/
theorem continueFrom_longer
    (finished : continueFrom target tolerance remaining set best = .ok result)
    (near : within tolerance result) (further : ℕ) :
    continueFrom target tolerance (remaining + further) set best = .ok result := by
  induction remaining generalizing set best with
  | zero =>
      cases finished
      exact continueFrom_of_within near _
  | succ remaining ih =>
      by_cases found : within tolerance best
      · rw [continueFrom_of_within found] at finished ⊢
        exact finished
      · rw [continueFrom_of_not_within found] at finished
        rw [Nat.succ_add, continueFrom_of_not_within found]
        rcases bind_eq_ok_iff.1 finished with ⟨next, extended, finished⟩
        exact bind_eq_ok_iff.2 ⟨next, extended, ih finished⟩

/-- A search for less meets its tolerance no later. -/
theorem continueFrom_looser [LawfulScalar α] (le : tolerance ≤ looser)
    (finished : continueFrom target tolerance remaining set best = .ok result)
    (near : within looser result) :
    ∃ other, continueFrom target looser remaining set best = .ok other ∧ within looser other := by
  induction remaining generalizing set best with
  | zero =>
      cases finished
      exact ⟨_, rfl, near⟩
  | succ remaining ih =>
      by_cases found : within looser best
      · exact ⟨best, continueFrom_of_within found _, found⟩
      · rw [continueFrom_of_not_within fun early => found (within_looser le early)] at finished
        rw [continueFrom_of_not_within found]
        rcases bind_eq_ok_iff.1 finished with ⟨next, extended, finished⟩
        rcases ih finished with ⟨other, finished, near⟩
        exact ⟨other, bind_eq_ok_iff.2 ⟨next, extended, finished⟩, near⟩

variable {anyon : Anyon} {bounds : SearchBounds} {found : Approximation α}

theorem approximate_eq_ok_iff :
    approximate anyon target tolerance bounds = .ok found ↔
      bounds.seed ≤ bounds.max ∧ ∃ set, BaseSet.ofLength? anyon bounds.seed = .ok set ∧
        continueFrom target tolerance (bounds.max - bounds.seed) set
          (closest target none set.words) = .ok (some found) := by
  rw [approximate_eq]
  unfold approximateByWords
  simp only
  split
  · rename_i reversed
    constructor
    · rintro ⟨⟩
    · rintro ⟨ordered, -⟩
      omega
  · rename_i ordered
    rw [bind_eq_ok_iff, and_iff_right (Nat.le_of_not_lt ordered)]
    refine exists_congr fun set => and_congr_right fun _ => ?_
    rw [bind_eq_ok_iff]
    constructor
    · rintro ⟨_ | best, finished, same⟩
      · cases same
      · cases same
        exact finished
    · intro finished
      exact ⟨some found, finished, rfl⟩

theorem approximate_longer (approximated : approximate anyon target tolerance bounds = .ok found)
    (near : found.error ≤ tolerance) {longer : ℕ} (le : bounds.max ≤ longer) :
    approximate anyon target tolerance ⟨bounds.seed, longer⟩ = .ok found := by
  rcases approximate_eq_ok_iff.1 approximated with ⟨ordered, set, started, finished⟩
  refine approximate_eq_ok_iff.2 ⟨ordered.trans le, set, started, ?_⟩
  have further := continueFrom_longer finished (within_some.2 near) (longer - bounds.max)
  rwa [show bounds.max - bounds.seed + (longer - bounds.max) = longer - bounds.seed by omega]
    at further

theorem approximate_looser [LawfulScalar α] (le : tolerance ≤ looser)
    (approximated : approximate anyon target tolerance bounds = .ok found)
    (near : found.error ≤ looser) :
    ∃ other, approximate anyon target looser bounds = .ok other ∧ other.error ≤ looser := by
  rcases approximate_eq_ok_iff.1 approximated with ⟨ordered, set, started, finished⟩
  rcases continueFrom_looser le finished (within_some.2 near) with ⟨_ | other, finished, near⟩
  · cases near
  · exact ⟨other, approximate_eq_ok_iff.2 ⟨ordered, set, started, finished⟩, within_some.1 near⟩

end Budget

end Search

end Anyonic
