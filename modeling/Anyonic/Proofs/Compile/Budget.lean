import Anyonic.Proofs.Compile.Halfway
import Anyonic.Proofs.Scalar.Laws

/-!
# The budget of a compilation

A compilation may spend an error on each gate and a number of letters on each search.  A search
stops at the first length that meets the tolerance, so that more letters do not change what it has
found; a larger tolerance may stop it earlier and at another word.  Either way a circuit that
compiles still does when the budget grows.
-/

namespace Anyonic

variable {α : Type} [Scalar α] [LawfulScalar α]

theorem not_lt_of_looser {tolerance looser error : α} (le : tolerance ≤ looser)
    (near : ¬tolerance < error) : ¬looser < error :=
  fun exceeded => near (LawfulScalar.lt_of_le_of_lt le exceeded)

theorem le_self_of_checkTolerance [Numeral α] {tolerance : α}
    (valid : checkTolerance tolerance = .ok ()) : tolerance ≤ tolerance := by
  unfold checkTolerance at valid
  split at valid
  · rename_i accepted
    rw [Bool.and_eq_true, decide_eq_true_eq] at accepted
    exact LawfulScalar.le_self_of_le accepted.2
  · cases valid

theorem checkTolerance_looser [Numeral α] {tolerance looser : α}
    (valid : checkTolerance tolerance = .ok ()) (le : tolerance ≤ looser)
    (finite : Scalar.isFinite looser) : checkTolerance looser = .ok () := by
  unfold checkTolerance at valid ⊢
  split at valid
  · rename_i accepted
    rw [Bool.and_eq_true, decide_eq_true_eq] at accepted
    exact if_pos (by simp [finite, LawfulScalar.le_trans accepted.2 le])
  · cases valid

theorem PhaseLattice.count_looser {tolerance looser : α} (le : tolerance ≤ looser)
    (lattice : PhaseLattice α) (gate : Gate α) :
    lattice.count gate looser = lattice.count gate tolerance ∨
      ∃ error, lattice.count gate tolerance =
        .error (.toleranceExceeded gate.name error tolerance) := by
  unfold count
  split
  · exact .inl rfl
  · rename_i phase phase_eq
    simp only
    split
    · by_cases exceeded : tolerance < residualSize (lattice.round phase).2
      · exact .inr ⟨_, if_pos exceeded⟩
      · exact .inl ((if_neg (not_lt_of_looser le exceeded)).trans (if_neg exceeded).symm)
    · by_cases exceeded : tolerance < residualSize (lattice.round phase).2
      · exact .inr ⟨_, if_pos exceeded⟩
      · exact .inl ((if_neg (not_lt_of_looser le exceeded)).trans (if_neg exceeded).symm)
    · exact .inl rfl

namespace CompileOptions

variable [Numeral α] {anyon : Anyon} {tolerance looser : α} {search : SearchBounds}
  {gate : Gate α} {qubit strands width : ℕ}

/-- The error of a word that is not above the tolerance is below or at it. -/
theorem error_le_of_approximateGate (valid : checkTolerance tolerance = .ok ())
    {found : Approximation α} {bound : α}
    (approximated : Search.approximateGate anyon gate bound search = .ok found)
    (near : ¬tolerance < found.error) : found.error ≤ tolerance := by
  rcases Search.settles_approximateGate.of_eq_ok approximated with ⟨target, -, measured⟩
  have comparable : found.error ≤ found.error := by
    rw [measured]
    exact target.distance_le_self _
  exact LawfulScalar.le_of_not_lt (le_self_of_checkTolerance valid) comparable near

theorem approximateFragment_longer (valid : checkTolerance tolerance = .ok ())
    {fragment : Fragment α}
    (compiled : (⟨anyon, tolerance, search⟩ : CompileOptions α).approximateFragment gate qubit
      strands = .ok fragment) {longer : ℕ} (le : search.max ≤ longer) :
    (⟨anyon, tolerance, ⟨search.seed, longer⟩⟩ : CompileOptions α).approximateFragment gate qubit
      strands = .ok fragment := by
  rcases exists_approximateFragment_eq_ok_iff.1 ⟨fragment, compiled⟩ with
    ⟨found, approximated, near⟩
  have error_le := error_le_of_approximateGate valid approximated near
  have same : Search.approximateGate anyon gate tolerance ⟨search.seed, longer⟩ = .ok found := by
    unfold Search.approximateGate at approximated ⊢
    split at approximated
    · exact Search.approximate_longer approximated error_le le
    · cases approximated
  unfold approximateFragment at compiled ⊢
  rw [approximated] at compiled
  rw [same]
  exact compiled

omit [LawfulScalar α] in
theorem strands_of_approximateFragment {options : CompileOptions α} {fragment : Fragment α}
    (compiled : options.approximateFragment gate qubit strands = .ok fragment) :
    fragment.strands = max strands (qubit + 3) := by
  rcases bind_eq_ok_iff.1 compiled with ⟨found, -, rest⟩
  simp only at rest
  split at rest
  · cases rest
  · rcases bind_eq_ok_iff.1 rest with ⟨word, -, same⟩
    cases same
    rfl

theorem approximateFragment_looser (valid : checkTolerance looser = .ok ())
    (le : tolerance ≤ looser) {fragment : Fragment α}
    (compiled : (⟨anyon, tolerance, search⟩ : CompileOptions α).approximateFragment gate qubit
      strands = .ok fragment) :
    ∃ other, (⟨anyon, looser, search⟩ : CompileOptions α).approximateFragment gate qubit strands =
      .ok other ∧ other.strands = fragment.strands := by
  rcases exists_approximateFragment_eq_ok_iff.1 ⟨fragment, compiled⟩ with
    ⟨found, approximated, near⟩
  have error_le := error_le_of_approximateGate valid approximated (not_lt_of_looser le near)
  have met : ∃ other, (⟨anyon, looser, search⟩ : CompileOptions α).approximateFragment gate qubit
      strands = .ok other := by
    apply exists_approximateFragment_eq_ok_iff.2
    unfold Search.approximateGate at approximated ⊢
    split at approximated
    · rcases Search.approximate_looser le approximated error_le with ⟨other, approximated, near⟩
      exact ⟨other, approximated, LawfulScalar.not_lt_of_le near⟩
    · cases approximated
  rcases met with ⟨other, other_eq⟩
  exact ⟨other, other_eq,
    (strands_of_approximateFragment other_eq).trans (strands_of_approximateFragment compiled).symm⟩

theorem singleFragment_longer (valid : checkTolerance tolerance = .ok ()) {fragment : Fragment α}
    (compiled : (⟨anyon, tolerance, search⟩ : CompileOptions α).singleFragment gate qubit strands =
      .ok fragment) {longer : ℕ} (le : search.max ≤ longer) :
    (⟨anyon, tolerance, ⟨search.seed, longer⟩⟩ : CompileOptions α).singleFragment gate qubit
      strands = .ok fragment := by
  unfold singleFragment at compiled ⊢
  simp only at compiled ⊢
  split at compiled
  · exact approximateFragment_longer valid compiled le
  · split at compiled
    · exact compiled
    · exact approximateFragment_longer valid compiled le
    · cases compiled

/-- With a larger tolerance a gate takes up the same strands. -/
theorem singleFragment_looser (valid : checkTolerance tolerance = .ok ())
    (valid' : checkTolerance looser = .ok ()) (le : tolerance ≤ looser) {fragment : Fragment α}
    (compiled : (⟨anyon, tolerance, search⟩ : CompileOptions α).singleFragment gate qubit strands =
      .ok fragment) :
    ∃ other, (⟨anyon, looser, search⟩ : CompileOptions α).singleFragment gate qubit strands =
      .ok other ∧ other.strands = fragment.strands := by
  unfold singleFragment at compiled ⊢
  simp only at compiled ⊢
  split at compiled
  · exact approximateFragment_looser valid' le compiled
  · rename_i lattice _
    rcases lattice.count_looser le gate with same | ⟨error, exceeded⟩
    · have braid_eq : lattice.braid gate qubit strands looser =
          lattice.braid gate qubit strands tolerance := by
        rw [PhaseLattice.braid, PhaseLattice.braid, valid, valid', same]
      rw [braid_eq]
      split at compiled
      · cases compiled
        exact ⟨_, rfl, rfl⟩
      · exact approximateFragment_looser valid' le compiled
      · cases compiled
    · rw [PhaseLattice.braid, valid, exceeded] at compiled
      cases compiled

omit [LawfulScalar α] in
/--
Two budgets make a difference only to the one gate by which an instruction is compiled, and the
instruction fits as soon as that gate takes up as many strands.
-/
theorem elementaryFragment_alike (options other : CompileOptions α) {instruction : Instruction α}
    (wellFormed : instruction.WellFormed width) (elementary : instruction.isElementary)
    (strands : ℕ) :
    (∃ fragment, options.elementaryFragment instruction strands = .ok fragment ∧
        other.elementaryFragment instruction strands = .ok fragment) ∨
      ∃ gate qubit, ∃ shape : Fragment α → Fragment α,
        options.elementaryFragment instruction strands =
          (options.singleFragment gate qubit strands).map shape ∧
        other.elementaryFragment instruction strands =
          (other.singleFragment gate qubit strands).map shape ∧
        ∀ single single', (shape single).Fits → single'.Fits →
          single'.strands = single.strands → (shape single').Fits := by
  rcases options.elementaryFragment_cases wellFormed elementary strands with
    ⟨noGate, unfolded⟩ | ⟨gate, qubit, rfl, single, controlled, -, unfolded⟩ |
      ⟨control, target, rfl, -, unfolded⟩
  · left
    rcases other.elementaryFragment_cases wellFormed elementary strands with
      ⟨-, unfolded'⟩ | ⟨_, _, rfl, -⟩ | ⟨_, _, rfl, -⟩
    · exact ⟨_, unfolded, unfolded'⟩
    · cases noGate
    · cases noGate
  · right
    refine ⟨gate, qubit, id, ?_, ?_, fun _ _ _ fits _ => fits⟩
    · rw [unfolded, Except.map_id]
      rfl
    · rw [elementaryFragment_single single controlled, Except.map_id]
      rfl
  · right
    refine ⟨.h, target, fun basisChange => (basisChange.append
      ⟨controlledTwist control target, strands, 0.0, []⟩).append basisChange, ?_, ?_, ?_⟩
    · exact unfolded.trans (options.controlledNotFragment_eq control target strands)
    · exact other.controlledNotFragment_eq control target strands
    · intro basisChange basisChange' fits fits' same
      refine ⟨fits.strands.trans_eq (by simp [Fragment.append, same]), ?_⟩
      intro generator listed
      simp only [Fragment.append, List.mem_append] at listed fits ⊢
      rcases listed with (listed | listed) | listed
      · have := fits'.inRange generator listed
        omega
      · have := fits.inRange generator (by simp [listed])
        simp only at this
        omega
      · have := fits'.inRange generator listed
        omega

theorem compileInstruction_longer {instruction : Instruction α}
    (elementary : instruction.isElementary) {decomposition : Decomposition α}
    (compiled : (⟨anyon, tolerance, search⟩ : CompileOptions α).compileInstruction instruction
      width = .ok decomposition) {longer : ℕ} (le : search.max ≤ longer) :
    (⟨anyon, tolerance, ⟨search.seed, longer⟩⟩ : CompileOptions α).compileInstruction instruction
      width = .ok decomposition := by
  rcases compileInstruction_eq_ok_iff.1 compiled with
    ⟨valid, wellFormed, fragment, found, fits, rfl⟩
  rw [fragment_of_isElementary elementary] at found
  refine compileInstruction_eq_ok_iff.2 ⟨valid, wellFormed, fragment, ?_, fits, rfl⟩
  rw [fragment_of_isElementary elementary]
  rcases elementaryFragment_alike ⟨anyon, tolerance, search⟩
      ⟨anyon, tolerance, ⟨search.seed, longer⟩⟩ wellFormed elementary (strandsFor width) with
    ⟨same, here, there⟩ | ⟨gate, qubit, shape, here, there, -⟩
  · rw [there, ← here, found]
  · rw [here] at found
    rcases map_eq_ok_iff.1 found with ⟨single, single_eq, rfl⟩
    rw [there, singleFragment_longer valid single_eq le]
    rfl

theorem compileInstruction_looser {instruction : Instruction α}
    (elementary : instruction.isElementary) (finite : Scalar.isFinite looser)
    (le : tolerance ≤ looser) {decomposition : Decomposition α}
    (compiled : (⟨anyon, tolerance, search⟩ : CompileOptions α).compileInstruction instruction
      width = .ok decomposition) :
    ∃ other, (⟨anyon, looser, search⟩ : CompileOptions α).compileInstruction instruction width =
      .ok other := by
  rcases compileInstruction_eq_ok_iff.1 compiled with
    ⟨valid, wellFormed, fragment, found, fits, -⟩
  have valid' : (⟨anyon, looser, search⟩ : CompileOptions α).validate = .ok () :=
    checkTolerance_looser valid le finite
  rw [fragment_of_isElementary elementary] at found
  suffices ∃ other, (⟨anyon, looser, search⟩ : CompileOptions α).elementaryFragment instruction
      (strandsFor width) = .ok other ∧ other.Fits by
    rcases this with ⟨other, other_eq, fits'⟩
    rw [← fragment_of_isElementary elementary] at other_eq
    exact ⟨_, compileInstruction_eq_ok_iff.2 ⟨valid', wellFormed, other, other_eq, fits', rfl⟩⟩
  rcases elementaryFragment_alike ⟨anyon, tolerance, search⟩ ⟨anyon, looser, search⟩ wellFormed
      elementary (strandsFor width) with
    ⟨same, here, there⟩ | ⟨gate, qubit, shape, here, there, transfer⟩
  · cases here.symm.trans found
    exact ⟨_, there, fits⟩
  · rw [here] at found
    rcases map_eq_ok_iff.1 found with ⟨single, single_eq, rfl⟩
    rcases singleFragment_looser valid valid' le single_eq with ⟨other, other_eq, same⟩
    rw [there, other_eq]
    exact ⟨shape other, rfl, transfer single other fits (singleFragment_fits other_eq) same⟩

/--
A circuit that compiles within a budget compiles within every larger one: with a larger tolerance,
and with a larger bound on the search, where the result stays the same.
-/
theorem compile_monotone {circuit : Circuit α} {compilation : Compilation α}
    (compiled : (⟨anyon, tolerance, search⟩ : CompileOptions α).compile circuit =
      .ok compilation) :
    (∀ looser, Scalar.isFinite looser → tolerance ≤ looser →
      ∃ other, (⟨anyon, looser, search⟩ : CompileOptions α).compile circuit = .ok other) ∧
    ∀ longer, search.max ≤ longer →
      (⟨anyon, tolerance, ⟨search.seed, longer⟩⟩ : CompileOptions α).compile circuit =
        .ok compilation := by
  rcases compile_eq_ok_iff.1 compiled with ⟨valid, elementary, decompositions, lowered, traversed,
    rfl⟩
  have isElementary := isElementary_of_lower_eq_ok lowered
  constructor
  · intro looser finite le
    have each : ∀ instruction ∈ elementary, ∃ other,
        (⟨anyon, looser, search⟩ : CompileOptions α).compileInstruction instruction circuit.width =
          .ok other := by
      intro instruction listed
      rcases exists_mapM_eq_ok_iff.1 ⟨_, traversed⟩ instruction listed with ⟨_, compiled⟩
      exact compileInstruction_looser (isElementary instruction listed) finite le compiled
    rcases exists_mapM_eq_ok_iff.2 each with ⟨others, traversed'⟩
    have valid' := checkTolerance_looser valid le finite
    exact ⟨_, compile_eq_ok_iff.2 ⟨valid', elementary, others, lowered, traversed', rfl⟩⟩
  · intro longer le
    have traversed' := (List.forall₂_and_left _ _).2 ⟨isElementary, mapM_eq_ok_iff.1 traversed⟩
    refine compile_eq_ok_iff.2 ⟨valid, elementary, decompositions, lowered,
      mapM_eq_ok_iff.2 (traversed'.imp ?_), rfl⟩
    rintro instruction decomposition ⟨isElementary, compiled⟩
    exact compileInstruction_longer isElementary compiled le

/-- The change of basis of a controlled not is one exchange.  A larger tolerance does no harm, and
twelve more letters change nothing. -/
theorem compile_monotone_beside_measurement :
    let circuit : Circuit ℝ := ⟨2, [.double .cx 0 1, ⟨.measure, [0]⟩], .one⟩
    ∃ compilation, (⟨.ising, 0.5, ⟨0, 8⟩⟩ : CompileOptions ℝ).compile circuit = .ok compilation ∧
      compilation.braids.map BraidWord.length = [6, 0] ∧
      (∃ other, (⟨.ising, 1, ⟨0, 8⟩⟩ : CompileOptions ℝ).compile circuit = .ok other) ∧
      (⟨.ising, 0.5, ⟨0, 20⟩⟩ : CompileOptions ℝ).compile circuit = .ok compilation := by
  intro circuit
  rcases exists_compile_controlledNot with ⟨first, second, compiled, length, none⟩
  rcases compile_monotone compiled with ⟨looser, longer⟩
  refine ⟨_, compiled, ?_, looser 1 rfl (by norm_num), longer 20 (by decide)⟩
  simp [Compilation.braids, length, none]

end CompileOptions

end Anyonic
