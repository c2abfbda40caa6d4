import Mathlib.Data.List.Basic
import Anyonic.Compile.Compiler
import Anyonic.Proofs.Lowering.Outcome

/-!
# Fragments of braids

The generators of every fragment that the compiler makes for a well-formed instruction fit on the
strands of the fragment, so that the fragment is a braid.  A twist does so only if the number of
strands is that of the qubits and one more, without wrapping around.
-/

namespace Anyonic

theorem BraidWord.ofGenerators_eq_ok_iff {strands : ℕ} {generators : List Generator}
    {word : BraidWord} :
    ofGenerators strands generators = .ok word ↔
      2 ≤ strands ∧ (∀ generator ∈ generators, generator.index + 2 ≤ strands) ∧
        word = ⟨strands, generators⟩ := by
  unfold ofGenerators
  split
  · simp only [reduceCtorEq, false_iff]
    omega
  · split
    · rename_i found
      have beyond := List.find?_some found
      have listed := List.mem_of_find?_eq_some found
      simp only [decide_eq_true_eq] at beyond
      simp only [reduceCtorEq, false_iff, not_and]
      intro _ inRange
      have := inRange _ listed
      omega
    · rename_i enough none
      simp only [List.find?_eq_none, decide_eq_true_eq] at none
      have inRange : ∀ generator ∈ generators, generator.index + 2 ≤ strands := by
        intro generator listed
        have := none generator listed
        omega
      simp only [Except.ok.injEq, eq_comm (a := word)]
      exact ⟨fun same => ⟨by omega, inRange, same⟩, fun fits => fits.2.2⟩

variable {α : Type} [Scalar α]

/-- The decomposition of an instruction whose braid is the given fragment. -/
def Fragment.decomposition [Numeral α] (instruction : Instruction α) (fragment : Fragment α) :
    Decomposition α :=
  ⟨instruction.operation.text, instruction.qubits, ⟨fragment.strands, fragment.generators⟩,
    fragment.error, fragment.notes⟩

/-- A fragment whose generators fit on its strands. -/
structure Fragment.Fits (fragment : Fragment α) : Prop where
  strands : 2 ≤ fragment.strands
  inRange : ∀ generator ∈ fragment.generators, generator.index + 2 ≤ fragment.strands

namespace Fragment.Fits

theorem empty {strands : ℕ} (enough : 2 ≤ strands) : (Fragment.empty strands : Fragment α).Fits :=
  ⟨enough, by simp [Fragment.empty]⟩

theorem append {first second : Fragment α} (fits : first.Fits) (fits' : second.Fits) :
    (first.append second).Fits := by
  refine ⟨Nat.le_trans fits.strands (Nat.le_max_left _ _), ?_⟩
  intro generator listed
  rcases List.mem_append.1 listed with listed | listed
  · exact Nat.le_trans (fits.inRange generator listed) (Nat.le_max_left _ _)
  · exact Nat.le_trans (fits'.inRange generator listed) (Nat.le_max_right _ _)

/-- Fragments that fit one by one fit when they are put together. -/
theorem foldl_append {start : Fragment α} {parts : List (Fragment α)} (fits : start.Fits)
    (each : ∀ part ∈ parts, part.Fits) : (parts.foldl Fragment.append start).Fits := by
  induction parts generalizing start with
  | nil => exact fits
  | cons part parts ih =>
      rcases List.forall_mem_cons.1 each with ⟨head, tail⟩
      exact ih (fits.append head) tail

end Fragment.Fits

theorem two_le_strandsFor (width : ℕ) : 2 ≤ strandsFor width := Nat.le_max_right _ _

theorem strandsFor_of_narrow {width : ℕ} (narrow : width + 1 < wrapLimit) :
    strandsFor width = max (width + 1) 2 := by
  rw [strandsFor, wrappingSucc_of_lt (by omega)]

theorem length_controlledTwist (control target : ℕ) :
    (controlledTwist control target).length =
      2 * (max control target - min control target) + 2 := by
  simp only [controlledTwist, List.length_append, List.length_map, List.length_reverse,
    List.length_range', List.length_cons, List.length_nil]
  omega

/-- A twist stays on the strands between its qubits and the next one. -/
theorem index_of_mem_controlledTwist {control target : ℕ} {generator : Generator}
    (listed : generator ∈ controlledTwist control target) :
    min control target ≤ generator.index ∧ generator.index ≤ max control target := by
  simp only [controlledTwist, List.mem_append, List.mem_map, List.mem_reverse,
    List.mem_range'_1, List.mem_cons, List.not_mem_nil, or_false, or_self] at listed
  rcases listed with (⟨index, bounds, rfl⟩ | rfl) | ⟨index, bounds, rfl⟩
  · simp only [Generator.clockwise]
    omega
  · simp only [Generator.clockwise]
    omega
  · simp only [Generator.counterClockwise]
    omega

namespace CompileOptions

variable [Numeral α] {options : CompileOptions α} {width : ℕ} {fragment : Fragment α}

theorem approximateFragment_fits {gate : Gate α} {qubit strands : ℕ}
    (found : options.approximateFragment gate qubit strands = .ok fragment) : fragment.Fits := by
  rcases bind_eq_ok_iff.1 found with ⟨approximation, -, found⟩
  simp only at found
  split at found
  · cases found
  · rcases bind_eq_ok_iff.1 found with ⟨word, built, same⟩
    obtain ⟨enough, inRange, rfl⟩ :=
      BraidWord.ofGenerators_eq_ok_iff.1 (CompileError.ofCircuit_eq_ok_iff.1 built)
    cases same
    exact ⟨enough, inRange⟩

theorem exactFragment_fits {lattice : PhaseLattice α} {gate : Gate α} {qubit strands : ℕ}
    {tolerance : α} {braid : ExactBraid α}
    (found : lattice.braid gate qubit strands tolerance = .ok braid) :
    (exactFragment gate qubit strands braid).Fits := by
  rcases bind_eq_ok_iff.1 found with ⟨-, -, found⟩
  rcases bind_eq_ok_iff.1 found with ⟨⟨count, error⟩, -, found⟩
  rcases bind_eq_ok_iff.1 found with ⟨word, built, same⟩
  obtain ⟨enough, inRange, rfl⟩ :=
    BraidWord.ofGenerators_eq_ok_iff.1 (CompileError.ofCircuit_eq_ok_iff.1 built)
  cases same
  exact ⟨enough, inRange⟩

theorem singleFragment_fits {gate : Gate α} {qubit strands : ℕ}
    (found : options.singleFragment gate qubit strands = .ok fragment) : fragment.Fits := by
  unfold singleFragment at found
  split at found
  · exact approximateFragment_fits found
  · split at found
    · rename_i braid_eq
      cases found
      exact exactFragment_fits braid_eq
    · exact approximateFragment_fits found
    · cases found

/-- A controlled not is put together from the change of basis on its target. -/
theorem controlledNotFragment_eq (options : CompileOptions α) (control target strands : ℕ) :
    options.controlledNotFragment control target strands =
      (options.singleFragment .h target strands).map fun basisChange =>
        (basisChange.append ⟨controlledTwist control target, strands, 0.0, []⟩).append
          basisChange := by
  rw [controlledNotFragment]
  cases options.singleFragment .h target strands <;> rfl

theorem controlledNotFragment_fits (narrow : width + 1 < wrapLimit) {control target : ℕ}
    (controlInRange : control < width) (targetInRange : target < width)
    (found : options.controlledNotFragment control target (strandsFor width) = .ok fragment) :
    fragment.Fits := by
  rw [controlledNotFragment_eq] at found
  rcases map_eq_ok_iff.1 found with ⟨basisChange, change_eq, rfl⟩
  have changeFits := singleFragment_fits change_eq
  have twistFits : (⟨controlledTwist control target, strandsFor width, 0.0, []⟩ :
      Fragment α).Fits := by
    refine ⟨two_le_strandsFor width, fun generator listed => ?_⟩
    have index := index_of_mem_controlledTwist listed
    simp only [strandsFor_of_narrow narrow]
    omega
  exact (changeFits.append twistFits).append changeFits

/-- The fragment of a well-formed instruction that is not put together from others fits. -/
theorem elementaryFragment_fits (narrow : width + 1 < wrapLimit) {instruction : Instruction α}
    (wellFormed : instruction.WellFormed width)
    (found : options.elementaryFragment instruction (strandsFor width) = .ok fragment) :
    fragment.Fits := by
  rcases bind_eq_ok_iff.1 found with ⟨-, -, found⟩
  split at found
  · cases found
    exact .empty (two_le_strandsFor width)
  · cases found
    exact .empty (two_le_strandsFor width)
  · cases found
  · rename_i qubits_eq
    have inRange := wellFormed.inRange
    rw [qubits_eq] at inRange
    exact controlledNotFragment_fits narrow (inRange _ (by simp)) (inRange _ (by simp)) found
  · cases found
  · exact singleFragment_fits found
  · cases found

variable {instruction : Instruction α}

/-- An instruction is compiled if it is well formed and its fragment is a braid. -/
theorem compileInstruction_eq_ok_iff {decomposition : Decomposition α} :
    options.compileInstruction instruction width = .ok decomposition ↔
      options.validate = .ok () ∧ instruction.WellFormed width ∧
        ∃ fragment, options.fragment instruction (strandsFor width) = .ok fragment ∧
          fragment.Fits ∧ decomposition = fragment.decomposition instruction := by
  have checked_iff := instruction.validate_eq_ok_iff width
  constructor
  · intro compiled
    rcases bind_eq_ok_iff.1 compiled with ⟨_, valid, rest⟩
    rcases bind_eq_ok_iff.1 rest with ⟨_, checked, rest⟩
    rcases bind_eq_ok_iff.1 rest with ⟨fragment, found, rest⟩
    rcases bind_eq_ok_iff.1 rest with ⟨braid, built, same⟩
    rcases BraidWord.ofGenerators_eq_ok_iff.1 (CompileError.ofCircuit_eq_ok_iff.1 built) with
      ⟨enough, inRange, rfl⟩
    cases same
    exact ⟨valid, checked_iff.1 (CompileError.ofCircuit_eq_ok_iff.1 checked), fragment, found,
      ⟨enough, inRange⟩, rfl⟩
  · rintro ⟨valid, wellFormed, fragment, found, fits, rfl⟩
    have built := BraidWord.ofGenerators_eq_ok_iff.2 ⟨fits.strands, fits.inRange, rfl⟩
    apply bind_eq_ok_iff.2 ⟨(), valid, _⟩
    apply bind_eq_ok_iff.2 ⟨(), CompileError.ofCircuit_eq_ok_iff.2 (checked_iff.2 wellFormed), _⟩
    apply bind_eq_ok_iff.2 ⟨fragment, found, _⟩
    exact bind_eq_ok_iff.2 ⟨_, CompileError.ofCircuit_eq_ok_iff.2 built, rfl⟩

omit [Scalar α] [Numeral α] in
/-- The instructions that are not lowered first are the elementary ones, among those that can be
lowered. -/
theorem lowersFirst_eq_false_iff {options : CompileOptions α} {instruction : Instruction α}
    (lowerable : Lowering.Lowerable (LoweringRules.ofAnyon options.anyon) instruction) :
    options.lowersFirst instruction.operation = false ↔ instruction.isElementary := by
  rcases instruction with ⟨operation, qubits⟩
  cases operation with
  | apply gate =>
      cases gate with
      | cp angle =>
          have on := lowerable.phase.resolve_right fun absent => absent angle rfl
          simp [lowersFirst, on, Instruction.isElementary, Instruction.compositeness,
            Instruction.gate?, Gate.compositeness]
      | _ =>
          simp [lowersFirst, Instruction.isElementary, Instruction.compositeness,
            Instruction.gate?, Gate.compositeness, Instruction.isReset]
  | reset => cases lowerable.notReset
  | _ =>
      simp [lowersFirst, Instruction.isElementary, Instruction.compositeness, Instruction.gate?,
        Instruction.isReset]

theorem fragment_of_isElementary (elementary : instruction.isElementary) (strands : ℕ) :
    options.fragment instruction strands = options.elementaryFragment instruction strands := by
  rcases Instruction.isElementary_iff.1 elementary with ⟨notReset, simple⟩
  have lowerable : Lowering.Lowerable (LoweringRules.ofAnyon options.anyon) instruction :=
    ⟨notReset, .inr fun angle isPhase => (simple _ isPhase).2.2.1 angle rfl,
      fun controls isSign => absurd rfl ((simple _ isSign).2.2.2.2 controls)⟩
  have own : options.lowersFirst instruction.operation = false :=
    (lowersFirst_eq_false_iff lowerable).2 elementary
  rw [fragment, own]
  rfl

/-- A circuit is compiled to what the instructions it is lowered to are compiled to. -/
theorem compile_eq_ok_iff {circuit : Circuit α} {compilation : Compilation α} :
    options.compile circuit = .ok compilation ↔
      options.validate = .ok () ∧ ∃ elementary decompositions,
        lower (LoweringRules.ofAnyon options.anyon) circuit.instructions = .ok elementary ∧
        (elementary.mapM fun instruction =>
          options.compileInstruction instruction circuit.width) = .ok decompositions ∧
        compilation = ⟨options.anyon, circuit.length, decompositions⟩ := by
  constructor
  · intro compiled
    rcases bind_eq_ok_iff.1 compiled with ⟨_, valid, rest⟩
    rcases bind_eq_ok_iff.1 rest with ⟨elementary, lowered, rest⟩
    rcases bind_eq_ok_iff.1 rest with ⟨decompositions, traversed, same⟩
    cases same
    exact ⟨valid, elementary, decompositions, lowered, traversed, rfl⟩
  · rintro ⟨valid, elementary, decompositions, lowered, traversed, rfl⟩
    apply bind_eq_ok_iff.2 ⟨(), valid, _⟩
    apply bind_eq_ok_iff.2 ⟨elementary, lowered, _⟩
    exact bind_eq_ok_iff.2 ⟨decompositions, traversed, rfl⟩

end CompileOptions

end Anyonic
