import Mathlib
import Anyonic.Proofs.Compile.Halfway

/-!
# The errors of compiled circuits

An error is a distance or what rounding to a lattice leaves over, and is never more than what is
tolerated of a gate; a controlled not makes the error of its change of basis twice.  Whatever makes
an error says so, and errors cannot cancel out, so that a circuit without remarks is exact.
-/

namespace Anyonic

variable {α : Type} [OrderedScalar α]

theorem PhaseLattice.count_error_bounds {lattice : PhaseLattice α} {gate : Gate α}
    {tolerance error : α} {count : ℤ} (notNegative : 0 ≤ tolerance)
    (counted : lattice.count gate tolerance = .ok (count, error)) :
    0 ≤ error ∧ error ≤ tolerance := by
  rcases lattice.count_cases gate tolerance with
    unavailable | ⟨residual, exceeded⟩ | ⟨found, left, found_eq, origin⟩
  · cases counted.symm.trans unavailable
  · cases counted.symm.trans exceeded
  · cases counted.symm.trans found_eq
    rcases origin with rfl | ⟨⟨residual, rfl⟩, near⟩
    · rw [OrderedScalar.zero_eq]
      exact ⟨le_rfl, notNegative⟩
    · exact ⟨residualSize_nonneg residual, not_lt.1 near⟩

theorem zero_le_of_checkTolerance_eq_ok [Numeral α] {tolerance : α}
    (valid : checkTolerance tolerance = .ok ()) : 0 ≤ tolerance := by
  unfold checkTolerance at valid
  split at valid
  · rename_i accepted
    rw [Bool.and_eq_true, decide_eq_true_eq, OrderedScalar.zero_eq] at accepted
    exact accepted.2
  · cases valid

/-- The error of a fragment is within a bound, and there is a remark on any error. -/
structure Fragment.Accounted (bound : α) (fragment : Fragment α) : Prop where
  nonneg : 0 ≤ fragment.error
  bounded : fragment.error ≤ bound
  noted : 0 < fragment.error → fragment.notes ≠ []

namespace Fragment.Accounted

theorem of_error_eq_zero {fragment : Fragment α} (exact : fragment.error = 0) :
    fragment.Accounted 0 := by
  refine ⟨exact.ge, exact.le, ?_⟩
  intro positive
  exact absurd exact positive.ne'

theorem append {first second : Fragment α} {bound other : α} (own : first.Accounted bound)
    (next : second.Accounted other) : (first.append second).Accounted (bound + other) := by
  refine ⟨add_nonneg own.nonneg next.nonneg, add_le_add own.bounded next.bounded, ?_⟩
  intro positive
  have notes_eq : (first.append second).notes = first.notes ++ second.notes := rfl
  rcases own.nonneg.eq_or_lt with zero | made
  · rcases next.nonneg.eq_or_lt with zero' | made
    · have error_eq : (first.append second).error = first.error + second.error := rfl
      rw [error_eq, ← zero, ← zero', add_zero] at positive
      exact absurd positive (lt_irrefl 0)
    · simp [notes_eq, next.noted made]
  · simp [notes_eq, own.noted made]

end Fragment.Accounted

namespace CompileOptions

variable [Numeral α]

/-- What the decomposition of an elementary instruction says about its error. -/
structure Accounts (options : CompileOptions α) (width : ℕ) (instruction : Instruction α)
    (decomposition : Decomposition α) : Prop where
  nonneg : 0 ≤ decomposition.error
  gate : ∀ gate qubit, instruction = .single gate qubit →
    decomposition.error ≤ options.tolerance
  idle : instruction.gate? = none → decomposition.error = 0
  controlledNot : ∀ control target, instruction = .double .cx control target →
    ∃ basisChange, options.compileInstruction (.single .h target) width = .ok basisChange ∧
      decomposition.error = 2 • basisChange.error ∧
      decomposition.error ≤ 2 • options.tolerance
  noted : 0 < decomposition.error → decomposition.notes ≠ []

variable {options : CompileOptions α} {gate : Gate α} {qubit strands width : ℕ}
  {fragment : Fragment α}

theorem OfGate.accounted (valid : options.validate = .ok ())
    (ofGate : options.OfGate gate qubit strands fragment) :
    fragment.Accounted options.tolerance := by
  cases ofGate with
  | exact own counted =>
      rcases PhaseLattice.count_error_bounds (zero_le_of_checkTolerance_eq_ok valid) counted with
        ⟨nonneg, bounded⟩
      refine ⟨nonneg, bounded, ?_⟩
      intro positive
      rw [← OrderedScalar.zero_eq] at positive
      simp only [exactFragment] at positive ⊢
      rw [if_pos positive]
      simp
  | searched searches approximated near =>
      rcases Search.settles_approximateGate.of_eq_ok approximated with ⟨target, -, measured⟩
      refine ⟨?_, not_lt.1 near, ?_⟩
      · simp only
        rw [measured]
        exact target.distance_nonneg _
      · intro _
        simp

theorem compileInstruction_basisChange (valid : options.validate = .ok ()) {target : ℕ}
    (inRange : target < width)
    (found : options.singleFragment .h target (strandsFor width) = .ok fragment) :
    options.compileInstruction (.single .h target) width =
      .ok (fragment.decomposition (.single .h target)) := by
  have wellFormed : (Instruction.single (.h : Gate α) target).WellFormed width :=
    ⟨rfl, by simpa [Instruction.single] using inRange, by simp [Instruction.single]⟩
  exact compileInstruction_eq_ok_iff.2
    ⟨valid, wellFormed, fragment, found, singleFragment_fits found, rfl⟩

theorem accounts_idle {instruction : Instruction α} (noGate : instruction.gate? = none) :
    options.Accounts width instruction
      ((Fragment.empty strands).decomposition instruction) where
  nonneg := OrderedScalar.zero_eq.ge
  gate := by
    rintro gate qubit rfl
    cases noGate
  idle := fun _ => OrderedScalar.zero_eq
  controlledNot := by
    rintro control target rfl
    cases noGate
  noted := fun positive => absurd OrderedScalar.zero_eq positive.ne'

theorem OfGate.accounts (valid : options.validate = .ok ())
    (ofGate : options.OfGate gate qubit strands fragment) :
    options.Accounts width (.single gate qubit)
      (fragment.decomposition (.single gate qubit)) where
  nonneg := (ofGate.accounted valid).nonneg
  gate := fun _ _ _ => (ofGate.accounted valid).bounded
  idle := by
    rintro ⟨⟩
  controlledNot := by
    rintro control target ⟨⟩
  noted := (ofGate.accounted valid).noted

theorem OfGate.accounts_controlledNot (valid : options.validate = .ok ()) {control target : ℕ}
    (inRange : target < width) {basisChange : Fragment α}
    (found : options.singleFragment .h target (strandsFor width) = .ok basisChange)
    (ofGate : options.OfGate .h target (strandsFor width) basisChange) :
    options.Accounts width (.double .cx control target)
      (((basisChange.append ⟨controlledTwist control target, strandsFor width, 0.0, []⟩).append
        basisChange).decomposition (.double .cx control target)) := by
  have own := ofGate.accounted valid
  have twist : (⟨controlledTwist control target, strandsFor width, 0.0, []⟩ :
      Fragment α).Accounted 0 :=
    .of_error_eq_zero OrderedScalar.zero_eq
  have whole := (own.append twist).append own
  refine ⟨whole.nonneg, ?_, ?_, ?_, whole.noted⟩
  · rintro gate qubit ⟨⟩
  · rintro ⟨⟩
  · rintro _ _ ⟨⟩
    refine ⟨_, compileInstruction_basisChange valid inRange found, ?_, ?_⟩
    · change basisChange.error + 0.0 + basisChange.error = 2 • basisChange.error
      rw [OrderedScalar.zero_eq, add_zero, two_nsmul]
    · have bounded := whole.bounded
      rw [add_zero, ← two_nsmul] at bounded
      exact bounded

theorem OfElementary.accounts {instruction : Instruction α} (valid : options.validate = .ok ())
    (wellFormed : instruction.WellFormed width)
    (ofElementary : options.OfElementary (strandsFor width) instruction fragment) :
    options.Accounts width instruction (fragment.decomposition instruction) := by
  cases ofElementary with
  | idle noGate => exact accounts_idle noGate
  | gate ofGate => exact ofGate.accounts valid
  | @controlledNot control target basisChange found ofGate =>
      have inRange : target < width := wellFormed.inRange target (by simp [Instruction.double])
      exact ofGate.accounts_controlledNot valid inRange found

theorem accounts_of_compileInstruction_eq_ok {instruction : Instruction α}
    (elementary : instruction.isElementary) {decomposition : Decomposition α}
    (compiled : options.compileInstruction instruction width = .ok decomposition) :
    options.Accounts width instruction decomposition := by
  rcases bind_eq_ok_iff.1 compiled with ⟨_, valid, -⟩
  rcases exists_of_compileInstruction_eq_ok elementary compiled with
    ⟨wellFormed, fragment, ofElementary, rfl⟩
  exact ofElementary.accounts valid wellFormed

end CompileOptions

namespace Compilation

theorem totalError_eq_sum (compilation : Compilation α) :
    compilation.totalError = (compilation.decompositions.map Decomposition.error).sum := by
  rw [totalError, OrderedScalar.zero_eq, List.sum_eq_foldl]

/-- Errors do not cancel out. -/
theorem isExact_iff {compilation : Compilation α}
    (nonneg : ∀ decomposition ∈ compilation.decompositions, 0 ≤ decomposition.error) :
    compilation.isExact ↔
      ∀ decomposition ∈ compilation.decompositions, decomposition.error = 0 := by
  rw [isExact, OrderedScalar.beq_iff_eq, OrderedScalar.zero_eq, totalError_eq_sum]
  constructor
  · intro zero decomposition listed
    apply List.all_zero_of_le_zero_le_of_sum_eq_zero _ zero (List.mem_map_of_mem listed)
    intro error member
    rcases List.mem_map.1 member with ⟨other, otherListed, rfl⟩
    exact nonneg other otherListed
  · intro zero
    apply List.sum_eq_zero
    intro error member
    rcases List.mem_map.1 member with ⟨other, otherListed, rfl⟩
    exact zero other otherListed

end Compilation

/--
Every error of a compiled circuit is accounted for: by the tolerance of a gate, by a remark, and in
the sum of all errors.
-/
theorem CompileOptions.compile_accounts [Numeral α] {options : CompileOptions α}
    {circuit : Circuit α} {compilation : Compilation α}
    (compiled : options.compile circuit = .ok compilation) :
    (∃ elementary,
      lower (LoweringRules.ofAnyon options.anyon) circuit.instructions = .ok elementary ∧
        List.Forall₂ (options.Accounts circuit.width) elementary compilation.decompositions) ∧
    compilation.totalError = (compilation.decompositions.map Decomposition.error).sum ∧
    (compilation.isExact ↔
      ∀ decomposition ∈ compilation.decompositions, decomposition.error = 0) ∧
    (compilation.warnings = [] → compilation.isExact) := by
  rcases exists_of_compile_eq_ok compiled with ⟨elementary, lowered, each⟩
  have accounts : List.Forall₂ (options.Accounts circuit.width) elementary
      compilation.decompositions := by
    refine each.imp ?_
    rintro instruction decomposition ⟨isElementary, own⟩
    exact accounts_of_compileInstruction_eq_ok isElementary own
  have nonneg : ∀ decomposition ∈ compilation.decompositions, 0 ≤ decomposition.error := by
    intro decomposition listed
    rcases exists_of_forall₂_of_mem accounts listed with ⟨instruction, own⟩
    exact own.nonneg
  refine ⟨⟨elementary, lowered, accounts⟩, compilation.totalError_eq_sum,
    Compilation.isExact_iff nonneg, ?_⟩
  intro silent
  apply (Compilation.isExact_iff nonneg).2
  intro decomposition listed
  rcases exists_of_forall₂_of_mem accounts listed with ⟨instruction, own⟩
  have notes : decomposition.notes = [] := List.flatMap_eq_nil_iff.1 silent decomposition listed
  by_contra nonzero
  exact own.noted (own.nonneg.lt_of_ne' nonzero) notes

/-- The error of a controlled not, whose change of basis is one exchange, and the exactness of a
measurement. -/
theorem CompileOptions.compile_accounts_beside_measurement :
    let circuit : Circuit ℝ := ⟨2, [.double .cx 0 1, ⟨.measure, [0]⟩], .one⟩
    ∃ compilation, halfway.compile circuit = .ok compilation ∧
      ∃ first second, compilation.decompositions = [first, second] ∧
        first.braid.length = 6 ∧ 0 ≤ first.error ∧ first.error ≤ 1 ∧ second.error = 0 ∧
        compilation.totalError = first.error ∧
        (compilation.isExact ↔ first.error = 0) := by
  intro circuit
  rcases exists_compile_controlledNot with ⟨first, second, compiled, length, -⟩
  let _ : OrderedScalar ℝ := .real
  rcases compile_accounts compiled with ⟨⟨elementary, lowered, each⟩, total, isExact_iff, -⟩
  cases lowered
  rcases List.forall₂_cons.1 each with ⟨own, later⟩
  rcases List.forall₂_cons.1 later with ⟨idle, -⟩
  rcases own.controlledNot 0 1 rfl with ⟨basisChange, -, -, bounded⟩
  have exact : second.error = 0 := idle.idle rfl
  refine ⟨_, compiled, first, second, rfl, length, own.nonneg, ?_, exact, ?_, ?_⟩
  · simpa [halfway_tolerance] using bounded
  · simpa [exact] using total
  · simpa [exact] using isExact_iff

end Anyonic
