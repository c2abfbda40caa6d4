import Anyonic.Proofs.Compile.Outcome

/-!
# The strands of compiled circuits

A circuit has one strand more than qubits, and at least two.  The word that a search finds for a
gate takes up three strands, the first of them that of the gate's qubit, so that a gate on the
last qubit needs one strand more.  No other instruction does.
-/

namespace Anyonic

variable {α : Type}

/--
The gates by which an elementary instruction is compiled: its own if it acts on one qubit, and the
change of basis of a controlled not.
-/
inductive Instruction.Involves : Instruction α → Gate α → ℕ → Prop where
  | own (gate : Gate α) (qubit : ℕ) : Involves (.single gate qubit) gate qubit
  | basisChange (control target : ℕ) : Involves (.double .cx control target) .h target

namespace Instruction

theorem involves_single_iff {gate other : Gate α} {qubit wire : ℕ} :
    (Instruction.single gate qubit).Involves other wire ↔ other = gate ∧ wire = qubit := by
  constructor
  · intro involves
    cases involves with
    | own => exact ⟨rfl, rfl⟩
  · rintro ⟨rfl, rfl⟩
    exact .own _ _

theorem involves_controlledNot_iff {other : Gate α} {control target wire : ℕ} :
    (Instruction.double .cx control target).Involves other wire ↔ other = .h ∧ wire = target := by
  constructor
  · intro involves
    cases involves with
    | basisChange => exact ⟨rfl, rfl⟩
  · rintro ⟨rfl, rfl⟩
    exact .basisChange _ _

theorem not_involves_of_gate? {instruction : Instruction α} (noGate : instruction.gate? = none)
    (gate : Gate α) (qubit : ℕ) : ¬instruction.Involves gate qubit := by
  intro involves
  cases involves <;> cases noGate

end Instruction

namespace CompileOptions

variable [Scalar α] [Numeral α]

/-- A word is searched for on the last qubit. -/
def SearchesLast (options : CompileOptions α) (width : ℕ) (instruction : Instruction α) : Prop :=
  ∃ gate qubit, qubit + 1 = width ∧ instruction.Involves gate qubit ∧ options.Searches gate

variable {options : CompileOptions α} {width : ℕ}

theorem OfGate.strands_cases (narrow : width + 1 < wrapLimit) {gate : Gate α} {qubit : ℕ}
    {fragment : Fragment α}
    (ofGate : options.OfGate gate qubit (strandsFor width) fragment) (inRange : qubit < width) :
    (qubit + 1 = width ∧ options.Searches gate) ∧ fragment.strands = width + 2 ∨
      ¬(qubit + 1 = width ∧ options.Searches gate) ∧ fragment.strands = strandsFor width := by
  cases ofGate with
  | exact own counted =>
      right
      refine ⟨?_, rfl⟩
      rintro ⟨-, searches⟩
      cases counted.symm.trans (searches _ own)
  | searched searches approximated near =>
      simp only [strandsFor_of_narrow narrow]
      by_cases last : qubit + 1 = width
      · left
        exact ⟨⟨last, searches⟩, by omega⟩
      · right
        exact ⟨fun both => last both.1, by omega⟩

/-- One more strand is there exactly if a search needs it. -/
theorem OfElementary.strands_cases (narrow : width + 1 < wrapLimit) {instruction : Instruction α}
    {fragment : Fragment α}
    (ofElementary : options.OfElementary (strandsFor width) instruction fragment)
    (wellFormed : instruction.WellFormed width) :
    options.SearchesLast width instruction ∧ fragment.strands = width + 2 ∨
      ¬options.SearchesLast width instruction ∧ fragment.strands = strandsFor width := by
  cases ofElementary with
  | idle noGate =>
      right
      refine ⟨?_, rfl⟩
      rintro ⟨gate, qubit, -, involves, -⟩
      exact Instruction.not_involves_of_gate? noGate gate qubit involves
  | @gate gate qubit fragment ofGate =>
      have inRange : qubit < width := wellFormed.inRange qubit (by simp [Instruction.single])
      rcases ofGate.strands_cases narrow inRange with
        ⟨⟨last, searches⟩, strands_eq⟩ | ⟨not, strands_eq⟩
      · exact .inl ⟨⟨gate, qubit, last, .own _ _, searches⟩, strands_eq⟩
      · right
        refine ⟨?_, strands_eq⟩
        rintro ⟨other, wire, last, involves, searches⟩
        rcases Instruction.involves_single_iff.1 involves with ⟨rfl, rfl⟩
        exact not ⟨last, searches⟩
  | @controlledNot control target basisChange found ofGate =>
      have inRange : target < width := wellFormed.inRange target (by simp [Instruction.double])
      rcases ofGate.strands_cases narrow inRange with
        ⟨⟨last, searches⟩, strands_eq⟩ | ⟨not, strands_eq⟩
      · left
        refine ⟨⟨.h, target, last, .basisChange _ _, searches⟩, ?_⟩
        simp only [Fragment.append, strands_eq, strandsFor_of_narrow narrow]
        omega
      · right
        refine ⟨?_, ?_⟩
        · rintro ⟨other, wire, last, involves, searches⟩
          rcases Instruction.involves_controlledNot_iff.1 involves with ⟨rfl, rfl⟩
          exact not ⟨last, searches⟩
        · simp only [Fragment.append, strands_eq]
          omega

/-- The braid of a compiled instruction is one that can be built. -/
theorem braid_of_compileInstruction_eq_ok {instruction : Instruction α}
    {decomposition : Decomposition α}
    (compiled : options.compileInstruction instruction width = .ok decomposition) :
    2 ≤ decomposition.braid.strands ∧ ∀ generator ∈ decomposition.braid.generators,
      generator.index ≤ decomposition.braid.strands - 2 := by
  rcases compileInstruction_eq_ok_iff.1 compiled with ⟨-, -, fragment, -, fits, rfl⟩
  refine ⟨fits.strands, ?_⟩
  intro generator listed
  exact Nat.le_sub_of_add_le (fits.inRange generator listed)

/-- What a compiled elementary instruction keeps of the instruction, and its strands. -/
theorem strands_of_compileInstruction_eq_ok (narrow : width + 1 < wrapLimit)
    {instruction : Instruction α} (elementary : instruction.isElementary)
    {decomposition : Decomposition α}
    (compiled : options.compileInstruction instruction width = .ok decomposition) :
    decomposition.qubits = instruction.qubits ∧
      (options.SearchesLast width instruction → decomposition.braid.strands = width + 2) ∧
      (¬options.SearchesLast width instruction →
        decomposition.braid.strands = max (width + 1) 2) := by
  rcases exists_of_compileInstruction_eq_ok elementary compiled with
    ⟨wellFormed, fragment, ofElementary, rfl⟩
  refine ⟨rfl, ?_⟩
  rw [← strandsFor_of_narrow narrow]
  rcases ofElementary.strands_cases narrow wellFormed with
    ⟨last, strands_eq⟩ | ⟨notLast, strands_eq⟩
  · exact ⟨fun _ => strands_eq, fun notLast => absurd last notLast⟩
  · exact ⟨fun last => absurd last notLast, fun _ => strands_eq⟩

/--
A circuit whose strands can be counted in 32 bits is refused or compiled, and then each of its
elementary instructions has a braid of its own, on one strand more than the circuit has qubits, or
on two more where a search runs past the last qubit.
-/
theorem compile_wellFormed (narrow : width + 2 < wrapLimit) {instructions : List (Instruction α)}
    {circuit : Circuit α}
    (built : Circuit.ofInstructions width instructions = .ok circuit) :
    (∀ error, options.compile circuit = .error error → error.IsRefusal) ∧
    ∀ compilation, options.compile circuit = .ok compilation →
      (∃ elementary,
        lower (LoweringRules.ofAnyon options.anyon) instructions = .ok elementary ∧
        List.Forall₂ (fun instruction decomposition =>
            options.compileInstruction instruction width = .ok decomposition ∧
            decomposition.qubits = instruction.qubits ∧
            (options.SearchesLast width instruction → decomposition.braid.strands = width + 2) ∧
            (¬options.SearchesLast width instruction →
              decomposition.braid.strands = max (width + 1) 2))
          elementary compilation.decompositions) ∧
      compilation.braids = compilation.decompositions.map Decomposition.braid ∧
      ∀ braid ∈ compilation.braids, 2 ≤ braid.strands ∧
        ∀ generator ∈ braid.generators, generator.index ≤ braid.strands - 2 := by
  have narrow : width + 1 < wrapLimit := Nat.lt_of_succ_lt narrow
  rcases Circuit.ofInstructions_eq_ok_iff.1 built with ⟨wellFormed, rfl⟩
  refine ⟨fun error failed => (settles_compile narrow wellFormed).isRefusal failed, ?_⟩
  intro compilation compiled
  rcases exists_of_compile_eq_ok compiled with ⟨elementary, lowered, each⟩
  refine ⟨⟨elementary, lowered, ?_⟩, rfl, ?_⟩
  · refine each.imp ?_
    rintro instruction decomposition ⟨isElementary, own⟩
    exact ⟨own, strands_of_compileInstruction_eq_ok narrow isElementary own⟩
  · intro braid listed
    rcases List.mem_map.1 listed with ⟨decomposition, member, rfl⟩
    rcases exists_of_forall₂_of_mem each member with ⟨instruction, -, own⟩
    exact braid_of_compileInstruction_eq_ok own

end CompileOptions

end Anyonic
