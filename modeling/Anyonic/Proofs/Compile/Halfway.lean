import Mathlib
import Anyonic.Proofs.Compile.Outcome
import Anyonic.Proofs.Exact.Errors
import Anyonic.Proofs.Search.Nearest

/-!
# Hadamard gates, halfway

With Ising anyons there is no exact braid for a Hadamard gate, so that a word is searched for.  If
half way is close enough, the search goes on from the empty word to the words of one letter and
stops there.  A controlled not is then a weave between two exchanges.
-/

namespace Anyonic

namespace CompileOptions

/-- The options of a compiler of Ising braids for which half way is close enough. -/
noncomputable def halfway : CompileOptions ℝ := ⟨.ising, 0.5, ⟨0, 8⟩⟩

theorem halfway_tolerance : halfway.tolerance = 1 / 2 := by
  norm_num [halfway]

theorem halfway_validate : halfway.validate = .ok () := by
  apply checkTolerance_of_nonneg
  rw [halfway_tolerance]
  exact one_half_pos.le

theorem exists_approximateGate_hadamard :
    ∃ found, Search.approximateGate halfway.anyon .h halfway.tolerance halfway.search = .ok found ∧
      found.letters.length = 1 ∧ ¬halfway.tolerance < found.error := by
  have ordered : halfway.search.seed ≤ halfway.search.max := Nat.zero_le 8
  have allowed : halfway.search.max ≤ maxSearchLength := show 8 ≤ 14 by decide
  rw [halfway_tolerance]
  rcases Search.exists_stopsAt .ising (.hadamard : QubitMatrix ℝ) (1 / 2) ordered allowed with
    ⟨length, index, word, stops, nearest, approximated⟩
  obtain rfl := stops.eq_one_of_hadamard rfl (show 1 ≤ 8 by decide)
  rcases nearest.length_eq_one_of_hadamard with ⟨single, near⟩
  exact ⟨_, approximated, single, not_lt.2 near⟩

/-- A Hadamard gate becomes one exchange. -/
theorem exists_singleFragment_hadamard (qubit strands : ℕ) :
    ∃ letter error note, halfway.singleFragment .h qubit strands =
      .ok ⟨[Letter.generator qubit letter], max strands (qubit + 3), error, [note]⟩ := by
  rcases exists_approximateGate_hadamard with ⟨found, approximated, single, near⟩
  rcases List.length_eq_one_iff.1 single with ⟨letter, letters_eq⟩
  have searched : halfway.singleFragment .h qubit strands =
      halfway.approximateFragment .h qubit strands := by
    have own : PhaseLattice.ofAnyon? halfway.anyon =
        some (⟨.ising, Anyon.ising.model.relativePhase⟩ : PhaseLattice ℝ) := rfl
    have unavailable : (⟨.ising, Anyon.ising.model.relativePhase⟩ : PhaseLattice ℝ).braid .h qubit
        strands halfway.tolerance = .error (.exactMappingUnavailable "h") := by
      rw [PhaseLattice.braid, show checkTolerance halfway.tolerance = .ok () from halfway_validate]
      rfl
    rw [singleFragment, own]
    simp only [unavailable]
  rcases exists_approximateFragment_eq_ok_iff.2 ⟨found, approximated, near⟩ with
    ⟨fragment, compiled⟩
  have compiled' := searched.trans compiled
  cases OfGate.of_singleFragment compiled' with
  | exact own counted =>
      cases own
      cases counted
  | searched _ approximated' _ =>
      cases approximated.symm.trans approximated'
      rw [letters_eq] at compiled'
      exact ⟨letter, found.error, _, compiled'⟩

/-- A controlled not becomes a twist between two exchanges. -/
theorem exists_controlledNotFragment (control target strands : ℕ) :
    ∃ letter fragment, halfway.controlledNotFragment control target strands = .ok fragment ∧
      fragment.generators = [Letter.generator target letter] ++ controlledTwist control target ++
        [Letter.generator target letter] ∧
      fragment.strands = max strands (target + 3) ∧ fragment.notes.length = 2 := by
  rcases exists_singleFragment_hadamard target strands with ⟨letter, error, note, found⟩
  have compiled := halfway.controlledNotFragment_eq control target strands
  rw [found] at compiled
  refine ⟨letter, _, compiled, rfl, ?_, rfl⟩
  simp [Fragment.append]

theorem exists_compileInstruction_controlledNot (width control target : ℕ)
    (narrow : width + 1 < wrapLimit) (distinct : control ≠ target)
    (controlInRange : control < width) (targetInRange : target < width) :
    ∃ decomposition,
      halfway.compileInstruction (.double .cx control target) width = .ok decomposition ∧
      decomposition.braid.length = 2 * (max control target - min control target) + 4 ∧
      decomposition.notes.length = 2 := by
  have wellFormed : (Instruction.double (.cx : Gate ℝ) control target).WellFormed width :=
    ⟨rfl, by simp [Instruction.double, controlInRange, targetInRange],
      by simp [Instruction.double, distinct]⟩
  rcases exists_controlledNotFragment control target (strandsFor width) with
    ⟨letter, fragment, compiled, generators_eq, -, notes⟩
  have fits := controlledNotFragment_fits narrow controlInRange targetInRange compiled
  refine ⟨_, compileInstruction_eq_ok_iff.2 ⟨halfway_validate, wellFormed, _, compiled, fits, rfl⟩,
    ?_, notes⟩
  simp only [Fragment.decomposition, BraidWord.length, generators_eq, List.length_append,
    length_controlledTwist, List.length_cons, List.length_nil]
  omega

theorem exists_compileInstruction_measure (width qubit : ℕ) (inRange : qubit < width) :
    ∃ decomposition, halfway.compileInstruction ⟨.measure, [qubit]⟩ width = .ok decomposition ∧
      decomposition.braid.length = 0 ∧ decomposition.notes = [] := by
  have wellFormed : (⟨.measure, [qubit]⟩ : Instruction ℝ).WellFormed width :=
    ⟨rfl, by simpa using inRange, by simp⟩
  exact ⟨_, compileInstruction_eq_ok_iff.2 ⟨halfway_validate, wellFormed, _, rfl,
    .empty (two_le_strandsFor width), rfl⟩, rfl, rfl⟩

/-- A controlled not beside a measurement. -/
theorem exists_compile_controlledNot :
    ∃ first second, halfway.compile ⟨2, [.double .cx 0 1, ⟨.measure, [0]⟩], .one⟩ =
        .ok ⟨.ising, 2, [first, second]⟩ ∧
      first.braid.length = 6 ∧ second.braid.length = 0 := by
  rcases exists_compileInstruction_controlledNot 2 0 1 (by decide) (by decide) (by decide)
    (by decide) with ⟨first, first_eq, length, -⟩
  rcases exists_compileInstruction_measure 2 0 (by decide) with ⟨second, second_eq, none, -⟩
  refine ⟨first, second, compile_eq_ok_iff.2 ⟨halfway_validate, _, _, rfl, ?_, rfl⟩, length, none⟩
  exact mapM_eq_ok_iff.2 (.cons first_eq (.cons second_eq .nil))

end CompileOptions

end Anyonic
