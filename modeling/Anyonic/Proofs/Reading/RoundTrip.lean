import Mathlib
import Anyonic.Proofs.Compile.Outcome
import Anyonic.Proofs.Exact.Errors
import Anyonic.Proofs.Exact.Phases
import Anyonic.Proofs.Scalar.Laws
import Anyonic.Reading

/-!
# From braids to circuits and back

When exchanges are quarter turns, a braid is read as a circuit of S gates and their inverses, and
this circuit is compiled to the braid again: each gate becomes the one exchange from which it was
read, without error and without a remark.  That the exchanges are quarter turns is a fact about the
anyons' phases, which have to come out of the arithmetic no further from a quarter turn than a gate
on the lattice of phases may be.
-/

namespace Anyonic

variable {α : Type} [Scalar α]

namespace PhaseLattice

/-- Exchanges are quarter turns, up to the error that a gate on the lattice may have. -/
def IsQuartered (lattice : PhaseLattice α) : Prop :=
  Scalar.abs (lattice.spacing - Scalar.pi / 2.0) ≤ latticeTolerance

/-- A gate with a fixed phase is on the lattice, that many exchanges from the origin. -/
def OnLattice (lattice : PhaseLattice α) (phase : α) (count : Int) : Prop :=
  ∃ residual, lattice.round phase = (count, residual) ∧ ¬latticeTolerance < Scalar.abs residual

end PhaseLattice

/-- Scalars that round a quarter turn to one exchange when exchanges are quarter turns. -/
class QuarterScalar (α : Type) [Scalar α] : Prop where
  onLattice_quarter {lattice : PhaseLattice α} :
    lattice.IsQuartered → lattice.OnLattice (Scalar.pi / 2.0) 1
  onLattice_neg_quarter {lattice : PhaseLattice α} :
    lattice.IsQuartered → lattice.OnLattice (-Scalar.pi / 2.0) (-1)

namespace PhaseLattice

section Exact

variable {lattice : PhaseLattice ℝ}

theorem isQuartered_iff : lattice.IsQuartered ↔ |lattice.spacing - Real.pi / 2| ≤ 1e-10 := by
  have half : (Scalar.pi : ℝ) / 2.0 = Real.pi / 2 := by norm_num
  rw [IsQuartered, half]
  rfl

/-- What is left of an angle that is about as many steps from the origin. -/
theorem onLattice_of_near {angle : ℝ} (above : -Real.pi < angle) (below : angle ≤ Real.pi)
    (positive : 1 ≤ lattice.spacing) {count : ℤ}
    (near : |angle - count * lattice.spacing| ≤ 1e-10) : lattice.OnLattice angle count := by
  rcases abs_le.1 near with ⟨lower, upper⟩
  have spacing_pos : 0 < lattice.spacing := by linarith
  have counted : Scalar.nearest (angle / lattice.spacing) = count := by
    apply Scalar.nearest_eq
    have quotient : angle / lattice.spacing - count =
        (angle - count * lattice.spacing) / lattice.spacing := by
      field_simp
    rw [quotient, abs_div, abs_of_pos spacing_pos, div_lt_iff₀ spacing_pos]
    norm_num at near ⊢
    linarith
  have residual_eq : lattice.round angle = (count, angle - count * lattice.spacing) := by
    norm_num at lower upper
    simp only [round, Scalar.normalizeAngle_eq_self above below, counted]
    rw [if_neg, if_neg]
    · rfl
    · change ¬lattice.spacing / 2.0 < angle - count * lattice.spacing
      norm_num
      linarith
    · change ¬angle - count * lattice.spacing ≤ -lattice.spacing / 2.0
      norm_num
      linarith
  exact ⟨_, residual_eq, not_lt.2 near⟩

end Exact

end PhaseLattice

instance QuarterScalar.exact : QuarterScalar ℝ where
  onLattice_quarter := by
    intro lattice quartered
    have pi_gt := Real.pi_gt_three
    have half : (Scalar.pi : ℝ) / 2.0 = Real.pi / 2 := by norm_num
    rw [PhaseLattice.isQuartered_iff, abs_sub_comm] at quartered
    have spacing := (abs_le.1 quartered).2
    norm_num at spacing
    rw [half]
    refine PhaseLattice.onLattice_of_near (by linarith) (by linarith) (by linarith) ?_
    rwa [Int.cast_one, one_mul]
  onLattice_neg_quarter := by
    intro lattice quartered
    have pi_gt := Real.pi_gt_three
    have half : -(Scalar.pi : ℝ) / 2.0 = -(Real.pi / 2) := by
      norm_num
      ring
    rw [PhaseLattice.isQuartered_iff] at quartered
    have spacing := (abs_le.1 quartered).1
    norm_num at spacing
    rw [half]
    refine PhaseLattice.onLattice_of_near (by linarith) (by linarith) (by linarith) ?_
    rwa [Int.cast_neg, Int.cast_one, neg_one_mul, neg_sub_neg]

omit [Scalar α] in
theorem Generator.wellFormed_quarterTurn {generator : Generator} {width : ℕ}
    (inRange : generator.index < width) :
    (generator.quarterTurn (α := α)).WellFormed width := by
  rcases generator with ⟨index, orientation⟩
  cases orientation <;> exact Instruction.wellFormed_onQubits_iff.2
    ⟨nofun, rfl, List.forall_mem_singleton.2 inRange, List.nodup_singleton _⟩

omit [Scalar α] in
theorem Generator.isElementary_quarterTurn (generator : Generator) :
    (generator.quarterTurn (α := α)).isElementary := by
  rcases generator with ⟨index, _ | _⟩ <;> rfl

omit [Scalar α] in
theorem Generator.forall_wellFormed_quarterTurn {generators : List Generator} {strands : ℕ}
    (inRange : ∀ generator ∈ generators, generator.index + 2 ≤ strands) :
    ∀ instruction ∈ generators.map (Generator.quarterTurn (α := α)),
      instruction.WellFormed (strands - 1) := by
  refine List.forall_mem_map.2 ?_
  intro generator listed
  have room := inRange generator listed
  exact wellFormed_quarterTurn (by omega)

namespace Compilation

variable [Numeral α]

/-- The compilation of quarter turns, each to an exchange of its own. -/
def ofExchanges (anyon : Anyon) (strands : ℕ) (generators : List Generator) : Compilation α where
  anyon := anyon
  originalGates := generators.length
  decompositions := generators.map fun generator =>
    Fragment.decomposition generator.quarterTurn ⟨[generator], strands, 0.0, []⟩

theorem totalError_ofExchanges [LawfulScalar α] (anyon : Anyon) (strands : ℕ)
    (generators : List Generator) :
    (ofExchanges anyon strands generators : Compilation α).totalError = 0.0 := by
  unfold totalError ofExchanges
  induction generators with
  | nil => rfl
  | cons generator generators ih =>
      rw [List.map_cons, List.map_cons, List.foldl_cons]
      simp only [Fragment.decomposition, LawfulScalar.zero_add_zero] at ih ⊢
      exact ih

end Compilation

namespace CompileOptions

variable [LawfulScalar α] [Numeral α] {options : CompileOptions α} {lattice : PhaseLattice α}

/-- A gate on the lattice becomes as many exchanges as it is steps from the origin, without error
and without a remark. -/
theorem singleFragment_of_count (valid : options.validate = .ok ())
    (own : PhaseLattice.ofAnyon? options.anyon = some lattice) {gate : Gate α}
    {qubit strands : ℕ} (room : qubit + 2 ≤ strands) {count : Int}
    (counted : lattice.count gate options.tolerance = .ok (count, 0.0)) :
    options.singleFragment gate qubit strands =
      .ok ⟨PhaseLattice.exchanges qubit count, strands, 0.0, []⟩ := by
  have silent : ¬(0.0 : α) < 0.0 := LawfulScalar.not_lt_of_le LawfulScalar.zero_le_zero
  rw [singleFragment, own]
  simp only
  rw [PhaseLattice.braid_eq valid room, counted]
  simp only [Except.map, exactFragment, if_neg silent]

variable [QuarterScalar α]

/-- The gate as which an exchange is read is compiled to that exchange. -/
theorem elementaryFragment_quarterTurn (valid : options.validate = .ok ())
    (own : PhaseLattice.ofAnyon? options.anyon = some lattice) (quartered : lattice.IsQuartered)
    {generator : Generator} {strands : ℕ} (room : generator.index + 2 ≤ strands) :
    options.elementaryFragment generator.quarterTurn strands =
      .ok ⟨[generator], strands, 0.0, []⟩ := by
  rcases generator with ⟨index, orientation⟩
  cases orientation with
  | clockwise =>
      rcases QuarterScalar.onLattice_quarter quartered with ⟨residual, rounded, near⟩
      have counted : lattice.count .s options.tolerance = .ok (1, 0.0) := by
        simp only [PhaseLattice.count, Gate.diagonalPhase?, rounded]
        rw [if_neg near]
      exact singleFragment_of_count valid own room counted
  | counterClockwise =>
      rcases QuarterScalar.onLattice_neg_quarter quartered with ⟨residual, rounded, near⟩
      have counted : lattice.count .sdg options.tolerance = .ok (-1, 0.0) := by
        simp only [PhaseLattice.count, Gate.diagonalPhase?, rounded]
        rw [if_neg near]
      exact singleFragment_of_count valid own room counted

theorem compile_quarterTurns (valid : options.validate = .ok ())
    (own : PhaseLattice.ofAnyon? options.anyon = some lattice) (quartered : lattice.IsQuartered)
    {strands : ℕ} (enough : 2 ≤ strands) (narrow : strands < wrapLimit)
    {generators : List Generator}
    (inRange : ∀ generator ∈ generators, generator.index + 2 ≤ strands) (phase : Amplitude α) :
    options.compile ⟨strands - 1, generators.map Generator.quarterTurn, phase⟩ =
      .ok (.ofExchanges options.anyon strands generators) := by
  have wellFormed := Generator.forall_wellFormed_quarterTurn (α := α) inRange
  have lowered : lower (LoweringRules.ofAnyon options.anyon)
      (generators.map (Generator.quarterTurn (α := α))) =
        .ok (generators.map Generator.quarterTurn) := by
    apply lower_of_isElementary
    · exact fun instruction listed => (wellFormed instruction listed).arity
    · exact List.forall_mem_map.2 fun generator _ => generator.isElementary_quarterTurn
  have width : strandsFor (strands - 1) = strands := by
    rw [strandsFor_of_narrow (by omega)]
    omega
  have traversed : (generators.map Generator.quarterTurn).mapM
      (options.compileInstruction · (strands - 1)) =
        .ok (Compilation.ofExchanges options.anyon strands generators).decompositions := by
    apply mapM_eq_ok_iff.2
    rw [Compilation.ofExchanges, List.forall₂_map_left_iff, List.forall₂_map_right_iff,
      List.forall₂_same]
    intro generator listed
    have found := elementaryFragment_quarterTurn valid own quartered (inRange generator listed)
    rw [← fragment_of_isElementary generator.isElementary_quarterTurn] at found
    have fits : (⟨[generator], strands, 0.0, []⟩ : Fragment α).Fits :=
      ⟨enough, by simpa using inRange generator listed⟩
    refine compileInstruction_eq_ok_iff.2
      ⟨valid, wellFormed _ (List.mem_map_of_mem listed), _, ?_, fits, rfl⟩
    rw [width, found]
  refine compile_eq_ok_iff.2 ⟨valid, _, _, lowered, traversed, ?_⟩
  simp [Circuit.length, Compilation.ofExchanges]

end CompileOptions

/--
A braid that is read as a circuit and compiled again is the same braid, one exchange at a time, if
exchanges are quarter turns.  Compiling counts the strands in 32 bits, and the braid has no more of
them than that.
-/
theorem BraidWord.compile_toCircuit [LawfulScalar α] [QuarterScalar α] [Numeral α] {strands : ℕ}
    {generators : List Generator} {word : BraidWord}
    (narrow : strands < wrapLimit) (built : ofGenerators strands generators = .ok word)
    (quartered : Scalar.abs (Anyon.ising.model.relativePhase - Scalar.pi / 2.0) ≤
      (PhaseLattice.latticeTolerance : α))
    {tolerance : α} (finite : Scalar.isFinite tolerance) (nonneg : 0.0 ≤ tolerance)
    (search : SearchBounds) :
    ∃ (circuit : Circuit α) (compilation : Compilation α),
      word.toCircuit .ising 0 = .ok circuit ∧
        (⟨.ising, tolerance, search⟩ : CompileOptions α).compile circuit = .ok compilation ∧
        compilation.isExact ∧ compilation.totalError = 0.0 ∧ compilation.warnings = [] ∧
        compilation.braids = word.generators.map (fun generator => ⟨word.strands, [generator]⟩) ∧
        compilation.braids.flatMap BraidWord.generators = word.generators := by
  rcases ofGenerators_eq_ok_iff.1 built with ⟨enough, inRange, rfl⟩
  have valid : (⟨.ising, tolerance, search⟩ : CompileOptions α).validate = .ok () :=
    if_pos (by simp [finite, nonneg])
  have total := Compilation.totalError_ofExchanges (α := α) .ising strands generators
  refine ⟨⟨strands - 1, generators.map Generator.quarterTurn,
      totalPhase .ising ⟨strands, generators⟩⟩,
    .ofExchanges .ising strands generators, ?_, ?_, ?_, total, ?_, ?_, ?_⟩
  · have wellFormed := Generator.forall_wellFormed_quarterTurn (α := α) inRange
    have checked := Circuit.ofInstructions_eq_ok_iff.2 ⟨wellFormed, rfl⟩
    change Prod.fst <$> (CompileError.ofCircuit (Circuit.ofInstructions (strands - 1)
      (generators.map Generator.quarterTurn)) >>= _) = _
    rw [checked]
    rfl
  · exact CompileOptions.compile_quarterTurns valid rfl quartered enough narrow inRange _
  · rw [Compilation.isExact, total]
    exact LawfulScalar.zero_beq_zero
  · simp [Compilation.warnings, Compilation.ofExchanges, Fragment.decomposition]
  · simp [Compilation.braids, Compilation.ofExchanges, Fragment.decomposition]
  · simp [Compilation.braids, Compilation.ofExchanges, Fragment.decomposition, List.flatMap_map]

/-- Two exchanges of one pair and one of the last pair, in both directions. -/
theorem BraidWord.compile_toCircuit_four_strands :
    let word : BraidWord := ⟨4, [.clockwise 0, .counterClockwise 0, .clockwise 2]⟩
    ofGenerators 4 word.generators = .ok word ∧
      ∃ (circuit : Circuit ℝ) (compilation : Compilation ℝ),
        word.toCircuit .ising 0 = .ok circuit ∧
          (⟨.ising, 0, ⟨1, 8⟩⟩ : CompileOptions ℝ).compile circuit = .ok compilation ∧
          compilation.isExact ∧
          compilation.braids.flatMap BraidWord.generators = word.generators := by
  intro word
  have built : ofGenerators 4 word.generators = .ok word := rfl
  have quartered : Scalar.abs (Anyon.ising.model.relativePhase - Scalar.pi / 2.0) ≤
      (PhaseLattice.latticeTolerance : ℝ) := by
    rw [Anyon.relativePhase_ising]
    norm_num [PhaseLattice.latticeTolerance]
  have finite : Scalar.isFinite (0 : ℝ) := rfl
  rcases compile_toCircuit (by decide) built quartered finite (by norm_num) ⟨1, 8⟩ with
    ⟨circuit, compilation, read, compiled, exact, -, -, -, generators_eq⟩
  exact ⟨built, circuit, compilation, read, compiled, exact, generators_eq⟩

end Anyonic
