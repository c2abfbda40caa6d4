import Anyonic.Proofs.Compile.Fragment
import Anyonic.Proofs.Search.Scan

/-!
# The outcome of compilation

What becomes of a well-formed instruction.  A single-qubit gate gets an exact braid or a word that
a search has found, a controlled not two braids of its change of basis around a twist, and nothing
else gets any generators.  When that fails on strands that are not too many to be counted, the
request is to blame: a tolerance or a search out of bounds, an operation without a braid, a gate
that no braid comes close enough to.
-/

namespace Anyonic

variable {α : Type}

theorem Letter.index_generator_le (letter : Letter) (qubit : ℕ) :
    (letter.generator qubit).index ≤ qubit + 1 := by
  cases letter <;> simp [generator, Generator.clockwise, Generator.counterClockwise]

/-- A word fits on any strands that have room for three. -/
theorem Approximation.braid_eq_ok (found : Approximation α) {qubit strands : ℕ}
    (room : qubit + 3 ≤ strands) :
    found.braid qubit strands = .ok ⟨strands, found.letters.map (Letter.generator qubit)⟩ := by
  refine BraidWord.ofGenerators_eq_ok_iff.2 ⟨by omega, ?_, rfl⟩
  intro generator listed
  rcases List.mem_map.1 listed with ⟨letter, -, rfl⟩
  have index := letter.index_generator_le qubit
  omega

variable [Scalar α]

theorem settles_checkTolerance [Numeral α] (tolerance : α) :
    Settles (checkTolerance tolerance) fun _ => True := by
  unfold checkTolerance
  split <;> trivial

namespace PhaseLattice

variable {lattice : PhaseLattice α} {gate : Gate α} {tolerance : α}

/-- The three outcomes of counting the exchanges for a gate. -/
theorem count_cases (lattice : PhaseLattice α) (gate : Gate α) (tolerance : α) :
    lattice.count gate tolerance = .error (.exactMappingUnavailable gate.name) ∨
      (∃ error, lattice.count gate tolerance =
        .error (.toleranceExceeded gate.name error tolerance)) ∨
      ∃ count error, lattice.count gate tolerance = .ok (count, error) ∧
        (error = 0.0 ∨ (∃ residual, error = residualSize residual) ∧ ¬tolerance < error) := by
  unfold count
  split
  · exact .inl rfl
  · simp only
    split
    · split
      · exact .inr (.inl ⟨_, rfl⟩)
      · rename_i near
        exact .inr (.inr ⟨_, _, rfl, .inr ⟨⟨_, rfl⟩, near⟩⟩)
    · split
      · exact .inr (.inl ⟨_, rfl⟩)
      · rename_i near
        exact .inr (.inr ⟨_, _, rfl, .inr ⟨⟨_, rfl⟩, near⟩⟩)
    · split
      · exact .inl rfl
      · exact .inr (.inr ⟨_, _, rfl, .inl rfl⟩)

/-- The exchanges of a pair fit on the strands, so that only counting them can fail. -/
theorem braid_eq [Numeral α] (valid : checkTolerance tolerance = .ok ()) {qubit strands : ℕ}
    (inRange : qubit + 2 ≤ strands) :
    lattice.braid gate qubit strands tolerance =
      (lattice.count gate tolerance).map fun counted =>
        ⟨⟨strands, exchanges qubit counted.1⟩, counted.2⟩ := by
  unfold braid
  rw [valid]
  cases lattice.count gate tolerance with
  | error error => rfl
  | ok counted =>
      have fits : ∀ generator ∈ exchanges qubit counted.1, generator.index + 2 ≤ strands := by
        intro generator listed
        rw [List.eq_of_mem_replicate listed]
        exact inRange
      have built := BraidWord.ofGenerators_eq_ok_iff.2 ⟨by omega, fits, rfl⟩
      change (CompileError.ofCircuit (BraidWord.ofGenerators strands (exchanges qubit counted.1))
        >>= _) = _
      rw [built]
      rfl

/-- Of all steps to an exact braid only the count can find that there is none. -/
theorem count_eq_of_braid_eq [Numeral α] {qubit strands : ℕ} {name : String}
    (unavailable : lattice.braid gate qubit strands tolerance =
      .error (.exactMappingUnavailable name)) :
    lattice.count gate tolerance = .error (.exactMappingUnavailable gate.name) := by
  unfold braid at unavailable
  rcases lattice.count_cases gate tolerance with
    unavailable' | ⟨error, exceeded⟩ | ⟨count, error, counted, -⟩
  · exact unavailable'
  · rw [exceeded] at unavailable
    unfold checkTolerance at unavailable
    split at unavailable <;> cases unavailable
  · rw [counted] at unavailable
    unfold checkTolerance at unavailable
    split at unavailable
    · change (CompileError.ofCircuit (BraidWord.ofGenerators strands (exchanges qubit count))
        >>= _) = _ at unavailable
      cases word : BraidWord.ofGenerators strands (exchanges qubit count) with
      | error error =>
          rw [word] at unavailable
          cases unavailable
      | ok word' =>
          rw [word] at unavailable
          cases unavailable
    · cases unavailable

end PhaseLattice

namespace CompileOptions

variable [Numeral α]

/-- There is no exact braid for a gate, so that a word is searched for. -/
def Searches (options : CompileOptions α) (gate : Gate α) : Prop :=
  ∀ lattice, PhaseLattice.ofAnyon? options.anyon = some lattice →
    lattice.count gate options.tolerance = .error (.exactMappingUnavailable gate.name)

/-- How the fragment of a single-qubit gate comes about. -/
inductive OfGate (options : CompileOptions α) (gate : Gate α) (qubit strands : ℕ) :
    Fragment α → Prop where
  | exact {lattice : PhaseLattice α} {count : Int} {error : α}
      (own : PhaseLattice.ofAnyon? options.anyon = some lattice)
      (counted : lattice.count gate options.tolerance = .ok (count, error)) :
      OfGate options gate qubit strands
        (exactFragment gate qubit strands ⟨⟨strands, PhaseLattice.exchanges qubit count⟩, error⟩)
  | searched {found : Approximation α} {note : String} (searches : options.Searches gate)
      (approximated : Search.approximateGate options.anyon gate options.tolerance options.search =
        .ok found)
      (near : ¬options.tolerance < found.error) :
      OfGate options gate qubit strands
        ⟨found.letters.map (Letter.generator qubit), max strands (qubit + 3), found.error, [note]⟩

/-- How the fragment of an elementary instruction comes about. -/
inductive OfElementary (options : CompileOptions α) (strands : ℕ) :
    Instruction α → Fragment α → Prop where
  | idle {instruction : Instruction α} (noGate : instruction.gate? = none) :
      OfElementary options strands instruction (.empty strands)
  | gate {gate : Gate α} {qubit : ℕ} {fragment : Fragment α}
      (ofGate : options.OfGate gate qubit strands fragment) :
      OfElementary options strands (.single gate qubit) fragment
  | controlledNot {control target : ℕ} {basisChange : Fragment α}
      (found : options.singleFragment .h target strands = .ok basisChange)
      (ofGate : options.OfGate .h target strands basisChange) :
      OfElementary options strands (.double .cx control target)
        ((basisChange.append ⟨controlledTwist control target, strands, 0.0, []⟩).append
          basisChange)

variable {options : CompileOptions α} {gate : Gate α} {qubit strands : ℕ}

theorem exists_approximateFragment_eq_ok_iff :
    (∃ fragment, options.approximateFragment gate qubit strands = .ok fragment) ↔
      ∃ found, Search.approximateGate options.anyon gate options.tolerance options.search =
        .ok found ∧ ¬options.tolerance < found.error := by
  constructor
  · rintro ⟨fragment, compiled⟩
    rcases bind_eq_ok_iff.1 compiled with ⟨found, approximated, rest⟩
    refine ⟨found, approximated, ?_⟩
    intro exceeded
    simp only [exceeded, if_true] at rest
    cases rest
  · rintro ⟨found, approximated, near⟩
    apply Exists.intro
    apply bind_eq_ok_iff.2
    refine ⟨found, approximated, ?_⟩
    simp only
    rw [if_neg near]
    apply bind_eq_ok_iff.2
    have built := found.braid_eq_ok (Nat.le_max_right strands (qubit + 3))
    exact ⟨_, CompileError.ofCircuit_eq_ok_iff.2 built, rfl⟩

theorem OfGate.of_approximateFragment (searches : options.Searches gate) {fragment : Fragment α}
    (compiled : options.approximateFragment gate qubit strands = .ok fragment) :
    options.OfGate gate qubit strands fragment := by
  rcases bind_eq_ok_iff.1 compiled with ⟨found, approximated, rest⟩
  simp only at rest
  split at rest
  · cases rest
  · rename_i near
    rw [found.braid_eq_ok (Nat.le_max_right _ _)] at rest
    cases rest
    exact .searched searches approximated near

/-- The fragment of a single-qubit gate is an exact braid or a word. -/
theorem OfGate.of_singleFragment {fragment : Fragment α}
    (compiled : options.singleFragment gate qubit strands = .ok fragment) :
    options.OfGate gate qubit strands fragment := by
  unfold singleFragment at compiled
  split at compiled
  · rename_i own
    apply OfGate.of_approximateFragment _ compiled
    intro lattice other
    cases own.symm.trans other
  · rename_i lattice own
    split at compiled
    · rename_i braid_eq
      cases compiled
      rcases bind_eq_ok_iff.1 braid_eq with ⟨_, -, rest⟩
      rcases bind_eq_ok_iff.1 rest with ⟨⟨count, error⟩, counted, rest⟩
      rcases bind_eq_ok_iff.1 rest with ⟨word, word_eq, same⟩
      obtain ⟨-, -, rfl⟩ :=
        BraidWord.ofGenerators_eq_ok_iff.1 (CompileError.ofCircuit_eq_ok_iff.1 word_eq)
      cases same
      exact .exact own counted
    · rename_i unavailable
      apply OfGate.of_approximateFragment _ compiled
      intro other same
      cases own.symm.trans same
      exact PhaseLattice.count_eq_of_braid_eq unavailable
    · cases compiled

theorem settles_approximateFragment :
    Settles (options.approximateFragment gate qubit strands) fun _ => True := by
  apply Search.settles_approximateGate.bind
  intro found _ _
  simp only
  split
  · trivial
  · rw [found.braid_eq_ok (Nat.le_max_right _ _)]
    trivial

/-- What becomes of a single-qubit gate on strands that have room for its pair. -/
theorem settles_singleFragment (valid : options.validate = .ok ())
    (inRange : qubit + 2 ≤ strands) :
    Settles (options.singleFragment gate qubit strands) fun _ => True := by
  unfold singleFragment
  cases (PhaseLattice.ofAnyon? options.anyon : Option (PhaseLattice α)) with
  | none => exact settles_approximateFragment
  | some lattice =>
      simp only
      rw [PhaseLattice.braid_eq valid inRange]
      rcases lattice.count_cases gate options.tolerance with
        unavailable | ⟨error, exceeded⟩ | ⟨count, error, counted, -⟩
      · rw [unavailable]
        exact settles_approximateFragment
      · rw [exceeded]
        trivial
      · rw [counted]
        trivial

theorem elementaryFragment_single (single : gate.arity = 1) (controlled : gate ≠ .mcz 0) :
    options.elementaryFragment (.single gate qubit) strands =
      options.singleFragment gate qubit strands := by
  cases gate with
  | mcz controls =>
      have none := Gate.controls_eq_zero_of_arity_eq_one single
      exact absurd (congrArg Gate.mcz none) controlled
  | cx => cases single
  | cz => cases single
  | swap => cases single
  | cp angle => cases single
  | ccx => cases single
  | _ => rfl

variable {instruction : Instruction α} {width : ℕ}

/-- The three kinds of well-formed elementary instructions. -/
theorem elementaryFragment_cases (options : CompileOptions α)
    (wellFormed : instruction.WellFormed width) (elementary : instruction.isElementary)
    (strands : ℕ) :
    (instruction.gate? = none ∧
        options.elementaryFragment instruction strands = .ok (.empty strands)) ∨
      (∃ gate qubit, instruction = .single gate qubit ∧ gate.arity = 1 ∧ gate ≠ .mcz 0 ∧
        qubit < width ∧
          options.elementaryFragment instruction strands =
            options.singleFragment gate qubit strands) ∨
      ∃ control target, instruction = .double .cx control target ∧ target < width ∧
        options.elementaryFragment instruction strands =
          options.controlledNotFragment control target strands := by
  rcases instruction with ⟨operation, qubits⟩
  have arity := wellFormed.arity
  cases operation with
  | measure =>
      left
      rw [elementaryFragment, arity]
      exact ⟨rfl, rfl⟩
  | barrier =>
      left
      rw [elementaryFragment, arity]
      exact ⟨rfl, rfl⟩
  | reset => cases (Instruction.isElementary_iff.1 elementary).1
  | apply gate =>
      right
      have simple := (Instruction.isElementary_iff.1 elementary).2 gate rfl
      rcases (Instruction.validateArity_apply_iff gate qubits).1 arity with ⟨controlled, -⟩
      by_cases isNot : gate = .cx
      · right
        subst isNot
        rcases wellFormed.exists_pair rfl with ⟨control, target, rfl, -, inRange, -⟩
        exact ⟨control, target, rfl, inRange, rfl⟩
      · left
        have single : gate.arity = 1 := by
          cases gate <;> simp_all [Gate.arity]
        rcases wellFormed.exists_wire single with ⟨qubit, rfl, inRange⟩
        exact ⟨gate, qubit, rfl, single, controlled, inRange,
          elementaryFragment_single single controlled⟩

/-- What the fragment of a well-formed elementary instruction is made of. -/
theorem OfElementary.of_elementaryFragment (wellFormed : instruction.WellFormed width)
    (elementary : instruction.isElementary) {fragment : Fragment α}
    (compiled : options.elementaryFragment instruction strands = .ok fragment) :
    options.OfElementary strands instruction fragment := by
  rcases options.elementaryFragment_cases wellFormed elementary strands with
    ⟨noGate, unfolded⟩ | ⟨gate, qubit, rfl, -, -, -, unfolded⟩ | ⟨control, target, rfl, -, unfolded⟩
  · cases unfolded.symm.trans compiled
    exact .idle noGate
  · rw [unfolded] at compiled
    exact .gate (.of_singleFragment compiled)
  · rw [unfolded, controlledNotFragment_eq] at compiled
    rcases map_eq_ok_iff.1 compiled with ⟨basisChange, found, rfl⟩
    exact .controlledNot found (.of_singleFragment found)

theorem exists_of_compileInstruction_eq_ok (elementary : instruction.isElementary)
    {decomposition : Decomposition α}
    (compiled : options.compileInstruction instruction width = .ok decomposition) :
    instruction.WellFormed width ∧ ∃ fragment,
      options.OfElementary (strandsFor width) instruction fragment ∧
        decomposition = fragment.decomposition instruction := by
  rcases compileInstruction_eq_ok_iff.1 compiled with ⟨-, wellFormed, fragment, found, -, rfl⟩
  rw [fragment_of_isElementary elementary] at found
  exact ⟨wellFormed, fragment, .of_elementaryFragment wellFormed elementary found, rfl⟩

theorem add_two_le_strandsFor (narrow : width + 1 < wrapLimit) (inRange : qubit < width) :
    qubit + 2 ≤ strandsFor width := by
  rw [strandsFor_of_narrow narrow]
  omega

/-- What becomes of a well-formed elementary instruction. -/
theorem settles_elementaryFragment (narrow : width + 1 < wrapLimit)
    (valid : options.validate = .ok ()) (wellFormed : instruction.WellFormed width)
    (elementary : instruction.isElementary) :
    Settles (options.elementaryFragment instruction (strandsFor width)) fun _ => True := by
  rcases options.elementaryFragment_cases wellFormed elementary (strandsFor width) with
    ⟨noGate, unfolded⟩ | ⟨gate, qubit, rfl, -, -, inRange, unfolded⟩ |
      ⟨control, target, rfl, inRange, unfolded⟩
  · rw [unfolded]
    trivial
  · rw [unfolded]
    exact settles_singleFragment valid (add_two_le_strandsFor narrow inRange)
  · rw [unfolded]
    apply (settles_singleFragment valid (add_two_le_strandsFor narrow inRange)).bind
    intro _ _ _
    trivial

theorem settles_compileInstruction (narrow : width + 1 < wrapLimit)
    (valid : options.validate = .ok ()) (wellFormed : instruction.WellFormed width)
    (elementary : instruction.isElementary) :
    Settles (options.compileInstruction instruction width) fun _ => True := by
  have settles := settles_elementaryFragment narrow valid wellFormed elementary
  cases found : options.elementaryFragment instruction (strandsFor width) with
  | error error =>
      have checked := (instruction.validate_eq_ok_iff width).2 wellFormed
      unfold compileInstruction
      rw [valid, checked, fragment_of_isElementary elementary, found]
      exact settles.isRefusal found
  | ok fragment =>
      have fits := elementaryFragment_fits narrow wellFormed found
      rw [← fragment_of_isElementary elementary] at found
      rw [compileInstruction_eq_ok_iff.2 ⟨valid, wellFormed, fragment, found, fits, rfl⟩]
      trivial

/-- The decompositions of a compiled circuit are those of its elementary instructions. -/
theorem exists_of_compile_eq_ok {circuit : Circuit α} {compilation : Compilation α}
    (compiled : options.compile circuit = .ok compilation) :
    ∃ elementary,
      lower (LoweringRules.ofAnyon options.anyon) circuit.instructions = .ok elementary ∧
        List.Forall₂ (fun instruction decomposition => instruction.isElementary ∧
            options.compileInstruction instruction circuit.width = .ok decomposition)
          elementary compilation.decompositions := by
  rcases compile_eq_ok_iff.1 compiled with ⟨-, elementary, decompositions, lowered, traversed, rfl⟩
  refine ⟨elementary, lowered, (List.forall₂_and_left _ _).2 ⟨?_, mapM_eq_ok_iff.1 traversed⟩⟩
  exact isElementary_of_lower_eq_ok lowered

/-- The compilation of a well-formed circuit fails only by refusing it. -/
theorem settles_compile {circuit : Circuit α} (narrow : circuit.width + 1 < wrapLimit)
    (wellFormed : ∀ instruction ∈ circuit.instructions, instruction.WellFormed circuit.width) :
    Settles (options.compile circuit) fun _ => True := by
  apply (settles_checkTolerance options.tolerance).bind
  intro _ valid _
  have arity : ∀ instruction ∈ circuit.instructions, instruction.validateArity = .ok () := by
    intro instruction listed
    exact (wellFormed instruction listed).arity
  apply (settles_lower arity).bind
  intro elementary lowered _
  have each : ∀ instruction ∈ elementary,
      Settles (options.compileInstruction instruction circuit.width) fun _ => True := by
    intro instruction listed
    exact settles_compileInstruction narrow valid
      (wellFormed_of_lower_eq_ok wellFormed lowered instruction listed)
      (isElementary_of_lower_eq_ok lowered instruction listed)
  apply (Settles.mapM each).bind
  intro decompositions _ _
  trivial

end CompileOptions

end Anyonic
