import Mathlib
import Anyonic.Proofs.Peephole.Commutation
import Anyonic.Proofs.Peephole.Inverse
import Anyonic.Proofs.Peephole.Levels

/-!
# Soundness of the optimiser

Every rewriting step keeps the operator of a well-formed list up to a sign, and keeps it exactly
where no angle is involved.  The sign comes from full turns about an axis, which are minus the
identity.  By induction over the steps the optimiser keeps the operator up to a global phase,
provided that it never takes different angles for the same.
-/

namespace Anyonic

open Complex (I exp)

variable {width : ℕ} (environment : Environment width)

/-- The matrix of a run of gates on one wire, the first of which acts first. -/
noncomputable def runMatrix : List (Gate ℝ) → Matrix Bool Bool ℂ
  | [] => 1
  | gate :: gates => runMatrix gates * gate.wireMatrix

section Merging

/-- A product that is a gate has the product of the matrices as its matrix. -/
theorem Product.wireMatrix_eq {first second gate : Gate ℝ}
    (found : Product.ofGates? first second = some (.one gate)) :
    gate.wireMatrix = second.wireMatrix * first.wireMatrix := by
  obtain ⟨turn, -, angle, angle', rfl, rfl, product_eq⟩ | ⟨-, rfl, cases⟩ :=
    Product.ofGates?_cases found
  · unfold Product.rotation at product_eq
    split at product_eq
    · cases product_eq
    · cases product_eq
      rw [Turn.wireMatrix_mul, add_comm]
  · simp only [Product.one.injEq, reduceCtorEq, and_false, or_false] at cases
    rcases cases with ⟨rfl, rfl⟩ | ⟨rfl, rfl⟩ | ⟨rfl, rfl⟩ | ⟨rfl, rfl⟩
    · rw [Gate.wireMatrix_t, Gate.wireMatrix_s, phaseMatrix_mul]
      congr 1
      ring
    · rw [Gate.wireMatrix_tdg, Gate.wireMatrix_sdg, phaseMatrix_mul]
      congr 1
      ring
    · rw [Gate.wireMatrix_s, Gate.wireMatrix_z, phaseMatrix_mul]
      congr 1
      ring
    · rw [Gate.wireMatrix_sdg, Gate.wireMatrix_z, phaseMatrix_mul]
      exact phaseMatrix_congr 1 (by push_cast; ring)

/-- Gates without a product are the identity up to a sign, if dropped turns are full ones. -/
theorem Product.wireMatrix_nothing {first second : Gate ℝ}
    (found : Product.ofGates? first second = some .nothing)
    (full : ∀ angle ∈ first.angle?, ∀ angle' ∈ second.angle?,
      ∃ count : ℤ, angle + angle' = count * (2 * Real.pi)) :
    ∃ sign : ℂ, ‖sign‖ = 1 ∧ (first.angle? = none → sign = 1) ∧
      second.wireMatrix * first.wireMatrix = sign • 1 := by
  obtain ⟨turn, -, angle, angle', rfl, rfl, -⟩ | ⟨free, rfl, cases⟩ :=
    Product.ofGates?_cases found
  · rcases full angle (by simp) angle' (by simp) with ⟨count, sum_eq⟩
    rcases turn.wireMatrix_full count with ⟨sign, unit, full_eq⟩
    refine ⟨sign, unit, by simp, ?_⟩
    rw [Turn.wireMatrix_mul, add_comm, sum_eq, full_eq]
  · simp only [reduceCtorEq, and_false, false_or] at cases
    rcases cases with ⟨rfl, -⟩
    refine ⟨1, norm_one, fun _ => rfl, ?_⟩
    rw [Gate.wireMatrix_z, phaseMatrix_mul, one_smul, ← phaseMatrix_zero]
    exact phaseMatrix_congr 1 (by push_cast; ring)

end Merging

section Templates

/-- A template's replacement has the matrix of the template. -/
theorem Template.runMatrix_eq {template : Template ℝ} (listed : template ∈ Template.all) :
    runMatrix template.replacement = runMatrix (template.head :: template.tail) := by
  simp only [Template.all, List.mem_cons, List.not_mem_nil, or_false] at listed
  obtain rfl | rfl | rfl | rfl | rfl := listed <;> simp only [runMatrix, one_mul]
  · simp only [Gate.wireMatrix_t, Gate.wireMatrix_tdg, phaseMatrix_mul]
    exact phaseMatrix_congr (-1) (by push_cast; ring)
  · simp only [Gate.wireMatrix_t, Gate.wireMatrix_s, phaseMatrix_mul]
    congr 1
    ring
  · simp only [Gate.wireMatrix_s, Gate.wireMatrix_sdg, phaseMatrix_mul]
    exact phaseMatrix_congr (-1) (by push_cast; ring)
  · exact Gate.wireMatrix_h_z_h.symm
  · exact Gate.wireMatrix_h_x_h.symm

/-- An instruction that does not touch a wire commutes with what happens on it. -/
theorem Instruction.operator_commute_onWire {instruction : Instruction ℝ} {wire : ℕ}
    (untouched : instruction.touches wire = false) (matrix : Matrix Bool Bool ℂ) :
    Commute (Operator.onWire wire fun _ => matrix) (instruction.operator environment) := by
  simp only [touches, Bool.or_eq_false_iff, List.contains_eq_mem, decide_eq_false_iff_not]
    at untouched
  rcases operator_eq_embed environment untouched.2 with ⟨entries, operator_eq⟩
  rw [operator_eq, ← Operator.embed_ofWire]
  exact Operator.embed_commute (by simpa using untouched.1) _ _

theorem Instruction.operator_of_wire? {instruction : Instruction ℝ} {wire : ℕ} {gate : Gate ℝ}
    (wellFormed : instruction.WellFormed width) (isWire : instruction.wire? = some wire)
    (instruction_eq : instruction = .onQubits gate instruction.qubits) (single : gate.arity = 1) :
    wire < width ∧
      instruction.operator environment = Operator.onWire wire fun _ => gate.wireMatrix := by
  rcases exists_of_wire? isWire with ⟨-, -, -, head⟩
  rw [instruction_eq] at wellFormed
  rcases wellFormed.operator_wire environment single with ⟨qubit, operands, inRange, operator_eq⟩
  rw [operands] at head
  obtain rfl : qubit = wire := by simpa using head
  rw [← instruction_eq] at operator_eq
  exact ⟨inRange, operator_eq⟩

/-- Gates taken from a wire act before all that remains. -/
theorem denote_of_taken {wire : ℕ} (inRange : wire < width) {gates : List (Gate ℝ)}
    {rest remaining : List (Instruction ℝ)} (taken : Peephole.Taken wire gates rest remaining)
    (wellFormed : ∀ instruction ∈ rest, instruction.WellFormed width)
    (free : ∀ gate ∈ gates, gate.angle? = none ∧ gate.arity = 1) :
    denote environment rest =
      denote environment remaining * Operator.onWire wire fun _ => runMatrix gates := by
  -- what has been taken passes every instruction that is left standing on other wires
  induction taken with
  | done => simp [runMatrix, Operator.onWire_one]
  | take isWire isGate _ ih =>
      rcases List.forall_mem_cons.1 wellFormed with ⟨wellFormed, wellFormed'⟩
      rcases List.forall_mem_cons.1 free with ⟨⟨gateFree, single⟩, free'⟩
      obtain ⟨-, operator_eq⟩ := Instruction.operator_of_wire? environment wellFormed isWire
        (Instruction.eq_of_isGate isGate gateFree) single
      rw [denote_cons, operator_eq, ih wellFormed' free', mul_assoc,
        Operator.onWire_mul inRange _ (Operator.ignores_const _), runMatrix]
  | @pass gates _ _ _ untouched _ ih =>
      have commute :=
        Instruction.operator_commute_onWire environment untouched (runMatrix gates)
      rw [denote_cons, denote_cons, ih (List.forall_mem_cons.1 wellFormed).2 free, mul_assoc,
        mul_assoc, commute.eq]

theorem denote_map_single {wire : ℕ} (inRange : wire < width) {gates : List (Gate ℝ)}
    (single : ∀ gate ∈ gates, gate.matrix?.isSome) :
    denote environment (gates.map (Instruction.single · wire)) =
      Operator.onWire wire fun _ => runMatrix gates := by
  induction gates with
  | nil => simp [runMatrix, Operator.onWire_one]
  | cons gate gates ih =>
      rw [List.map_cons, denote_cons, ih fun other listed => single other
        (List.mem_cons_of_mem _ listed), Instruction.operator_single environment
        (single gate List.mem_cons_self), Operator.onWire_mul inRange _
        (Operator.ignores_const _), runMatrix]

end Templates

section Steps

/-- The operators of two lists are the same up to a phase, which angles alone can bring in. -/
def PhaseEquivalent (source target : List (Instruction ℝ)) : Prop :=
  ∃ phase : ℂ, ‖phase‖ = 1 ∧
    ((∀ instruction ∈ source, instruction.angle? = none) → phase = 1) ∧
      denote environment source = phase • denote environment target

variable {environment}

theorem PhaseEquivalent.of_eq {source target : List (Instruction ℝ)}
    (same : denote environment source = denote environment target) :
    PhaseEquivalent environment source target :=
  ⟨1, norm_one, fun _ => rfl, by rw [one_smul, same]⟩

/-- An instruction and one that undoes it multiply to the identity. -/
theorem Instruction.operator_mul_of_undoneBy {first second : Instruction ℝ}
    (wellFormed : first.WellFormed width) (wellFormed' : second.WellFormed width)
    (undone : first.undoneBy second)
    (opposite : ∀ angle ∈ first.angle?, ∀ angle' ∈ second.angle?, -angle = angle') :
    second.operator environment * first.operator environment = 1 := by
  rcases exists_of_undoneBy undone with ⟨gate, other, qubits, qubits', rfl, rfl, close, same⟩
  obtain rfl : gate.inverse = other := by
    obtain ⟨other_eq, -⟩ | ⟨turn, negated, angle', inverse_eq, rfl, -⟩ :=
      Gate.approxEq_cases close
    · exact other_eq
    · rcases Turn.exists_of_inverse_eq inverse_eq with ⟨angle, rfl, -⟩
      rw [Turn.inverse_gate, opposite angle (by simp) angle' (by simp)]
  have perm := Gate.perm_of_sameOperands wellFormed.distinct same
  have moved := Gate.operator_eq_of_sameOperands environment (wellFormed'.of_perm perm.symm)
    wellFormed' (by rwa [Gate.sameOperands_inverse])
  rw [← moved]
  exact Gate.operator_inverse_mul environment wellFormed

/-- Two instructions do the same as their product, up to a phase. -/
theorem Product.phaseEquivalent {first second : Instruction ℝ} {product : Product ℝ}
    (wellFormed : first.WellFormed width) (wellFormed' : second.WellFormed width)
    (found : Product.ofInstructions? first second = some product)
    (full : product = .nothing → ∀ angle ∈ first.angle?, ∀ angle' ∈ second.angle?,
      ∃ count : ℤ, angle + angle' = count * Scalar.turn) :
    PhaseEquivalent environment [first, second] (product.instructions second.qubits) := by
  rw [Scalar.exact_turn] at full
  obtain ⟨gate, other, qubits, rfl, rfl, single, single', product_eq⟩ :=
    Product.exists_of_ofInstructions? found
  rcases wellFormed.operator_wire environment single with ⟨qubit, rfl, inRange, operator_eq⟩
  rcases wellFormed'.operator_wire environment single' with ⟨qubit', same, -, operator_eq'⟩
  obtain rfl : qubit = qubit' := by simpa using same
  have pair_eq : denote environment [.onQubits gate [qubit], .onQubits other [qubit]] =
      Operator.onWire qubit fun _ => other.wireMatrix * gate.wireMatrix := by
    rw [denote_cons, denote_cons, denote_nil, one_mul, operator_eq, operator_eq',
      Operator.onWire_mul inRange _ (Operator.ignores_const _)]
  cases product with
  | one merged =>
      apply PhaseEquivalent.of_eq
      rcases Product.arity_of_ofGates? product_eq with ⟨arity, controlled⟩
      have merged_eq := Instruction.operator_single environment
        (Gate.isSome_matrix? arity controlled) qubit
      rw [Product.wireMatrix_eq product_eq] at merged_eq
      exact pair_eq.trans (merged_eq.symm.trans (one_mul _).symm)
  | nothing =>
      rcases Product.wireMatrix_nothing product_eq (full rfl) with ⟨sign, unit, free, nothing_eq⟩
      refine ⟨sign, unit, fun all => free (all _ List.mem_cons_self), ?_⟩
      rw [pair_eq, nothing_eq, Operator.onWire_smul, Operator.onWire_one]
      rfl

namespace Peephole

/-- Two instructions that undo each other can be left out, if the first passes all between them. -/
theorem denote_of_undone {before between after : List (Instruction ℝ)}
    {first second : Instruction ℝ}
    (undo : second.operator environment * first.operator environment = 1)
    (passes : ∀ instruction ∈ between,
      Commute (first.operator environment) (instruction.operator environment)) :
    denote environment (before ++ first :: (between ++ second :: after)) =
      denote environment (before ++ (between ++ after)) := by
  have pass : Commute (first.operator environment) (denote environment between) :=
    denote_commute environment passes
  simp only [denote_append, denote_cons]
  calc denote environment after * second.operator environment * denote environment between *
          first.operator environment * denote environment before
      = denote environment after * (second.operator environment *
          (denote environment between * first.operator environment)) *
            denote environment before := by simp only [mul_assoc]
    _ = denote environment after * (second.operator environment *
          first.operator environment * denote environment between) *
            denote environment before := by rw [← pass.eq, mul_assoc (second.operator _)]
    _ = denote environment after * denote environment between *
          denote environment before := by rw [undo, one_mul]

/-- A rewriting step keeps the operator up to a phase. -/
theorem StepBy.phaseEquivalent {source target : List (Instruction ℝ)}
    (step : StepBy Comparison.Exact source target)
    (wellFormed : ∀ instruction ∈ source, instruction.WellFormed width) :
    PhaseEquivalent environment source target := by
  cases step with
  | @drop before after instruction identity =>
      apply PhaseEquivalent.of_eq
      simp [Instruction.operator_of_isIdentity environment (wellFormed _ (by simp)) identity]
  | @cancel before between after first second undone commute exactly =>
      have undo : second.operator environment * first.operator environment = 1 :=
        Instruction.operator_mul_of_undoneBy (wellFormed _ (by simp)) (wellFormed _ (by simp))
          undone (exactly undone)
      apply PhaseEquivalent.of_eq
      apply denote_of_undone undo
      intro instruction listed
      exact (Instruction.operator_commute_of_commutes environment
        (wellFormed _ (by simp [listed])) (wellFormed _ (by simp))
        (commute instruction listed).1).symm
  | @merge before after first second product found exactly =>
      have pair : PhaseEquivalent environment [first, second] _ :=
        Product.phaseEquivalent (wellFormed first (by simp)) (wellFormed second (by simp)) found
          fun nothing => exactly (nothing ▸ found)
      rcases pair with ⟨phase, unit, free, pair_eq⟩
      refine ⟨phase, unit, fun all => free fun instruction listed => all _ ?_, ?_⟩
      · simp only [List.mem_cons, List.not_mem_nil, or_false] at listed
        simp only [List.mem_append, List.mem_cons]
        tauto
      · have split : before ++ first :: second :: after = before ++ ([first, second] ++ after) :=
          rfl
        rw [split]
        simp only [denote_append, pair_eq, mul_smul_comm, smul_mul_assoc]
  | @template before rest replacement remaining instruction found =>
      obtain ⟨wire, template, listed, isWire, instruction_eq, taken, rfl⟩ :=
        exists_of_matchTemplate? found
      have wellFormed' := wellFormed instruction (by simp)
      have known (gate : Gate ℝ)
          (used : gate ∈ template.head :: template.tail ++ template.replacement) :=
        Template.free_of_mem_all listed used
      obtain ⟨inRange, operator_eq⟩ := Instruction.operator_of_wire? environment wellFormed'
        isWire instruction_eq (known template.head (by simp)).2.1
      have rest_eq := denote_of_taken environment inRange taken
        (fun other present => wellFormed other (by simp [present]))
        (fun gate used => ⟨(known gate (by simp [used])).1, (known gate (by simp [used])).2.1⟩)
      have replacement_eq := denote_map_single environment inRange
        (fun gate (used : gate ∈ template.replacement) => Gate.isSome_matrix?
          (known gate (by simp [used])).2.1 (known gate (by simp [used])).2.2)
      apply PhaseEquivalent.of_eq
      simp only [denote_append, denote_cons]
      rw [rest_eq, operator_eq, replacement_eq, Template.runMatrix_eq listed, runMatrix,
        mul_assoc (denote environment remaining),
        Operator.onWire_mul inRange _ (Operator.ignores_const _)]

theorem ReachesBy.phaseEquivalent {source target : List (Instruction ℝ)}
    (reaches : ReachesBy Comparison.Exact source target)
    (wellFormed : ∀ instruction ∈ source, instruction.WellFormed width) :
    PhaseEquivalent environment source target := by
  -- from the front, since what a step needs is known of the list it starts from
  induction reaches using Relation.ReflTransGen.head_induction_on with
  | refl => exact PhaseEquivalent.of_eq rfl
  | head step _ ih =>
      rcases step.phaseEquivalent wellFormed with ⟨phase, unit, free, same⟩
      rcases ih (step.wellFormed wellFormed) with ⟨phase', unit', free', same'⟩
      refine ⟨phase * phase', by rw [norm_mul, unit, unit', one_mul], fun all => ?_, ?_⟩
      · rw [free all, free' (step.free all), one_mul]
      · rw [same, same', smul_smul]

end Peephole

end Steps

theorem ComparesExactly.phaseEquivalent {instructions : List (Instruction ℝ)} {level : ℕ}
    (exactly : ComparesExactly instructions level)
    (wellFormed : ∀ instruction ∈ instructions, instruction.WellFormed width) :
    PhaseEquivalent environment instructions (optimize instructions level) :=
  ((optimize_trace instructions level).reaches.mono exactly).phaseEquivalent wellFormed

/-- The optimiser keeps the operator of a list up to a global phase if the comparisons of angles
that it makes on the list are exact, and it keeps the operator of a list without angles as it is. -/
theorem denote_optimize (instructions : List (Instruction ℝ))
    (valid : ∀ instruction ∈ instructions, instruction.validate width = .ok ()) (level : ℕ) :
    (ComparesExactly instructions level →
      ∃ phase : ℂ, ‖phase‖ = 1 ∧
        denote environment (optimize instructions level) =
          phase • denote environment instructions) ∧
    ((∀ instruction ∈ instructions, instruction.angle? = none) →
      denote environment (optimize instructions level) = denote environment instructions) := by
  have wellFormed : ∀ instruction ∈ instructions, instruction.WellFormed width :=
    fun instruction listed => (instruction.validate_eq_ok_iff width).1 (valid instruction listed)
  constructor
  · intro exactly
    obtain ⟨phase, unit, -, same⟩ : PhaseEquivalent environment _ _ :=
      exactly.phaseEquivalent environment wellFormed
    refine ⟨phase⁻¹, by rw [norm_inv, unit, inv_one], ?_⟩
    have nonzero : phase ≠ 0 := by
      rintro rfl
      simp at unit
    rw [same, inv_smul_smul₀ nonzero]
  · intro free
    have exactly := ComparesExactly.of_anglesDiscernible wellFormed
      (anglesDiscernible_of_free free) level
    obtain ⟨phase, -, trivial, same⟩ : PhaseEquivalent environment _ _ :=
      exactly.phaseEquivalent environment wellFormed
    rw [same, trivial free, one_smul]

/-- Two half turns behind a controlled not make a full turn, which is dropped for a sign.  Turns
that are nearly opposite are not compared as long as another gate keeps them apart. -/
theorem denote_optimize_half_turns :
    let environment : Environment 2 := ⟨fun _ => 1, fun _ => 0, fun _ => 1, 1⟩
    let turns : List (Instruction ℝ) :=
      [.double .cx 0 1, .single (.rz Real.pi) 0, .single (.rz Real.pi) 0, .double .cx 0 1]
    let apart : List (Instruction ℝ) :=
      [.single (.rz 1) 0, .single .s 0, .single (.rz (-1 + 5e-11)) 0]
    let free : List (Instruction ℝ) :=
      [.single .h 1, .onQubits (.mcz 1) [0, 1], .single .h 1, .double .swap 1 0]
    ComparesExactly turns 3 ∧
    (∃ phase : ℂ, ‖phase‖ = 1 ∧
      denote environment (optimize turns 3) = phase • denote environment turns) ∧
    ComparesExactly apart 1 ∧
    (∃ phase : ℂ, ‖phase‖ = 1 ∧
      denote environment (optimize apart 1) = phase • denote environment apart) ∧
    denote environment (optimize free 3) = denote environment free := by
  intro environment turns apart free
  have turnsValid : ∀ instruction ∈ turns, instruction.validate 2 = .ok () := by
    simp only [turns, List.forall_mem_cons, List.not_mem_nil, false_imp_iff, implies_true,
      and_true]
    exact ⟨rfl, rfl, rfl, rfl⟩
  have apartValid : ∀ instruction ∈ apart, instruction.validate 2 = .ok () := by
    simp only [apart, List.forall_mem_cons, List.not_mem_nil, false_imp_iff, implies_true,
      and_true]
    exact ⟨rfl, rfl, rfl⟩
  have freeValid : ∀ instruction ∈ free, instruction.validate 2 = .ok () := by
    simp only [free, List.forall_mem_cons, List.not_mem_nil, false_imp_iff, implies_true,
      and_true]
    exact ⟨rfl, rfl, rfl, rfl⟩
  have discernible : AnglesDiscernible turns := by
    have wide : Gate.angleTolerance ≤ Real.pi :=
      le_trans (by norm_num [Gate.angleTolerance]) Real.pi_gt_three.le
    have closes : 2 * Real.pi = (2 : ℤ) * Real.pi := by norm_num
    apply AnglesDiscernible.of_grid wide closes
    simp only [turns, List.forall_mem_cons, List.not_mem_nil, false_imp_iff, implies_true]
    simp [Instruction.double, Instruction.single, Gate.angle?]
  have exactly : ComparesExactly turns 3 :=
    .of_anglesDiscernible (fun instruction listed =>
      (instruction.validate_eq_ok_iff 2).1 (turnsValid instruction listed)) discernible 3
  have exactly' : ComparesExactly apart 1 := by
    intro comparison made
    rw [comparisons_one] at made
    change comparison ∈ [⟨.undoes, _, _⟩, ⟨.undoes, _, _⟩, ⟨.fullTurn, _, _⟩, ⟨.fullTurn, _, _⟩]
      at made
    simp only [List.mem_cons, List.not_mem_nil, or_false] at made
    rcases made with rfl | rfl | rfl | rfl <;>
    · intro passes
      cases passes
  refine ⟨exactly, (denote_optimize environment turns turnsValid 3).1 exactly, exactly',
    (denote_optimize environment apart apartValid 1).1 exactly',
    (denote_optimize environment free freeValid 3).2 ?_⟩
  simp [free, Instruction.double, Instruction.single, Gate.angle?]

end Anyonic
