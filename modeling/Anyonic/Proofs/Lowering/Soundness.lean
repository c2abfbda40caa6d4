import Anyonic.Proofs.Operator.Phases
import Anyonic.Proofs.Lowering.Outcome

/-!
# Soundness of lowering

Every rule keeps the operator of the instruction it is applied to, exactly and without a global
phase.  The rules for phases take the phase of two conditions apart into halves on each of them
and the opposite half on their sum; the rules for nots are those for signs between two changes of
basis.
-/

namespace Anyonic

open Complex (I exp)

variable {width : ℕ} (environment : Environment width)

namespace Operator

/-- A change of basis on one wire. -/
noncomputable def hadamard (qubit : ℕ) : Operator width :=
  onWire qubit fun _ => Gate.wireMatrix .h

theorem hadamard_mul_self {qubit : ℕ} (inRange : qubit < width) :
    (hadamard qubit * hadamard qubit : Operator width) = 1 := by
  rw [hadamard, onWire_mul inRange _ (ignores_const _), Gate.wireMatrix_h_mul_self, onWire_one]

/-- A sign between two changes of basis is a not of the qubit whose basis changes. -/
theorem hadamard_mul_onesPhase_mul {controls : List ℕ} {target : ℕ} (apart : target ∉ controls)
    (inRange : target < width) :
    hadamard target * onesPhase (controls ++ [target]) (-1) * hadamard target =
      (ofMap (flipWhere target fun state => state.allOnes controls) : Operator width) := by
  have ignores : Ignores target fun state : Basis width => state.allOnes controls :=
    ignores_allOnes apart
  have sign_eq : (onesPhase (controls ++ [target]) (-1) : Operator width) =
      onWire target fun state => if state.allOnes controls then Gate.wireMatrix .z else 1 := by
    rw [onesPhase, diagonal_eq_onWire _ target]
    apply onWire_congr
    intro state
    have values (value : Bool) : (state.set target value).allOnes (controls ++ [target]) =
        (state.allOnes controls && value) := by
      rw [Basis.allOnes_append, state.allOnes_set apart]
      simp [inRange]
    simp only [values]
    cases state.allOnes controls <;> simp [phaseMatrix]
  rw [sign_eq, hadamard, onWire_mul inRange _ (ignores.map fun all =>
      if all then Gate.wireMatrix .z else 1), onWire_mul inRange _ (ignores_const _),
    ofMap_flipWhere inRange ignores]
  apply onWire_congr
  intro state
  split
  · rw [Gate.wireMatrix_h_z_h, Gate.wireMatrix_x]
  · rw [mul_one, Gate.wireMatrix_h_mul_self]

/-- A not between two changes of basis is a sign. -/
theorem hadamard_mul_ofMap_mul {controls : List ℕ} {target : ℕ} (apart : target ∉ controls)
    (inRange : target < width) :
    (hadamard target * ofMap (flipWhere target fun state => state.allOnes controls) *
      hadamard target : Operator width) = onesPhase (controls ++ [target]) (-1) := by
  rw [← hadamard_mul_onesPhase_mul apart inRange]
  have twice := hadamard_mul_self inRange
  calc (hadamard target * (hadamard target * onesPhase (controls ++ [target]) (-1) *
          hadamard target) * hadamard target : Operator width)
      = hadamard target * hadamard target * onesPhase (controls ++ [target]) (-1) *
          (hadamard target * hadamard target) := by simp only [mul_assoc]
    _ = onesPhase (controls ++ [target]) (-1) := by rw [twice, one_mul, mul_one]

end Operator

namespace Lowering

open Instruction (single double onQubits)

theorem denote_between_h (instructions : List (Instruction ℝ)) (target : ℕ) :
    denote environment (single .h target :: (instructions ++ [single .h target])) =
      Operator.hadamard target * denote environment instructions * Operator.hadamard target := by
  have h_eq : (single (.h : Gate ℝ) target).operator environment = Operator.hadamard target :=
    Instruction.operator_single environment rfl target
  rw [denote_cons, denote_append, denote_cons, denote_nil, one_mul, h_eq]

theorem denote_controlledNot {control target : ℕ} (different : control ≠ target)
    (inRange : target < width) :
    denote environment [controlledNot control target] =
      Operator.ofMap (Operator.flipWhere target fun state => state.allOnes [control]) := by
  rw [denote_cons, denote_nil, one_mul, controlledNot,
    Instruction.operator_cx environment different inRange]
  simp

theorem denote_controlledSign {control target : ℕ} (different : control ≠ target)
    (inRange : target < width) :
    denote environment (controlledSign control target) =
      Operator.onesPhase [control, target] (-1) := by
  have apart : target ∉ [control] := by simpa using different.symm
  have sign_eq := Operator.hadamard_mul_ofMap_mul apart inRange
  rw [← denote_controlledNot environment different inRange] at sign_eq
  exact (denote_between_h environment [controlledNot control target] target).trans sign_eq

theorem denote_exchange {first second : ℕ} (different : first ≠ second)
    (firstInRange : first < width) (secondInRange : second < width) :
    denote environment (exchange first second) =
      Operator.ofMap (Operator.exchange first second) := by
  have forth := Instruction.operator_cx environment different secondInRange
  have back := Instruction.operator_cx environment different.symm firstInRange
  simp only [exchange, controlledNot, denote_cons, denote_nil, one_mul, forth, back,
    Operator.ofMap_mul]
  congr 1
  funext state
  apply Basis.ext_bit
  intro qubit inRange
  simp only [Function.comp_apply]
  by_cases atSecond : qubit = second
  · subst atSecond
    simp [Operator.bit_flipWhere_same, Operator.bit_flipWhere_other, firstInRange, secondInRange,
      different, different.symm, Operator.exchange]
  · by_cases atFirst : qubit = first
    · subst atFirst
      cases first : state.bit qubit <;>
        simp [Operator.bit_flipWhere_same, Operator.bit_flipWhere_other, firstInRange,
          secondInRange, different, Operator.exchange, Basis.bit_set_other, first]
    · simp [Operator.bit_flipWhere_other, atFirst, atSecond, Operator.exchange,
        Basis.bit_set_other]

/-- The phase of two conditions, under a third one: half of it on each, and the opposite half on
their sum. -/
theorem halves_add (angle : ℝ) (first second common : Bool) :
    angleIf (first && common) (angle / 2) + angleIf ((second ^^ first) && common) (-angle / 2) +
      angleIf (second && common) (angle / 2) = angleIf (first && second && common) angle := by
  cases first <;> cases second <;> cases common <;> simp [angleIf] <;> ring

theorem denote_controlledPhase (angle : ℝ) {control target : ℕ} (different : control ≠ target)
    (controlInRange : control < width) (targetInRange : target < width) :
    denote environment (controlledPhase angle control target) =
      Operator.phases fun state => angleIf (state.bit control && state.bit target) angle := by
  have apart : target ∉ [control] := by simpa using different.symm
  have not := PhasedMap.of_map (denote_controlledNot environment different targetInRange)
  have phase (turn : ℝ) {qubit : ℕ} (inRange : qubit < width) :
      PhasedMap environment [single (.p turn) qubit] id
        fun state => angleIf (state.bit qubit) turn :=
    PhasedMap.wire rfl (Gate.wireMatrix_p turn) inRange
  have phased := ((((phase (angle / 2.0) controlInRange).append not).append
    (phase (-angle / 2.0) targetInRange)).append not).append (phase (angle / 2.0) targetInRange)
  have back := congrFun
    (Operator.flipWhere_involutive targetInRange (Operator.ignores_allOnes apart))
  apply phased.eq_phases back
  intro state
  have flipped := Operator.bit_flipWhere_same targetInRange
    (fun state => state.allOnes [control]) state
  have sum_eq := halves_add angle (state.bit control) (state.bit target) true
  simp only [Function.comp_apply, id_eq] at back ⊢
  rw [back, flipped]
  norm_num [Bool.xor_comm] at sum_eq ⊢
  exact sum_eq

theorem denote_multiControlledNot {controls : List ℕ} {target : ℕ} (some : controls ≠ [])
    (apart : target ∉ controls) (inRange : target < width) :
    denote environment (multiControlledNot controls target) =
      Operator.ofMap (Operator.flipWhere target fun state => state.allOnes controls) := by
  unfold multiControlledNot
  split
  · exact denote_controlledNot environment (by simpa [eq_comm] using apart) inRange
  · rename_i control other
    have different : control ≠ target ∧ other ≠ target := by simpa [eq_comm] using apart
    rw [denote_cons, denote_nil, one_mul,
      Instruction.operator_ccx environment different.1 different.2 inRange]
    simp
  · rw [← Operator.hadamard_mul_onesPhase_mul apart inRange,
      ← Instruction.operator_mcz environment controls.length]
    have between := denote_between_h environment
      [onQubits (.mcz controls.length) (controls ++ [target])] target
    rwa [denote_cons _ _ [], denote_nil, one_mul] at between

theorem lt_of_near_half_turn {angle : ℝ}
    (near : Scalar.abs (angle - Scalar.pi) < machineEpsilon) : Real.pi / 2 < angle := by
  rw [Scalar.exact_abs, Scalar.exact_pi, abs_lt] at near
  have small : (machineEpsilon : ℝ) < 1 := by norm_num [machineEpsilon]
  have := Real.pi_gt_three
  linarith

/-- A phase with one control.  Half a turn becomes a sign, and no angle of at most a quarter is
close enough to half a turn for that. -/
theorem denote_singlyControlledPhase {angle : ℝ}
    (fraction : angle = Real.pi ∨ 0 ≤ angle ∧ angle ≤ Real.pi / 2) {control target : ℕ}
    (different : control ≠ target) (controlInRange : control < width)
    (targetInRange : target < width) :
    denote environment (multiControlledPhase angle [control] target) =
      Operator.phases fun state => angleIf (state.bit control && state.bit target) angle := by
  unfold multiControlledPhase
  split
  · rename_i close
    obtain rfl : angle = Real.pi := by
      apply fraction.resolve_right
      rintro ⟨-, small⟩
      exact absurd (lt_of_near_half_turn close) small.not_gt
    have sign := Instruction.operator_cz environment [control, target]
    rw [Operator.onesPhase_neg_one] at sign
    rw [denote_cons, denote_nil, one_mul]
    refine sign.trans ?_
    simp
  · exact denote_controlledPhase environment angle different controlInRange targetInRange

/-- A phase with any number of controls, which each step halves. -/
theorem denote_multiControlledPhase {angle : ℝ}
    (fraction : angle = Real.pi ∨ 0 ≤ angle ∧ angle ≤ Real.pi / 2) {controls : List ℕ} {target : ℕ}
    (distinct : (controls ++ [target]).Nodup)
    (inRange : ∀ qubit ∈ controls ++ [target], qubit < width) :
    denote environment (multiControlledPhase angle controls target) =
      Operator.phases fun state => angleIf (state.allOnes controls && state.bit target) angle := by
  have targetInRange : target < width := inRange target (by simp)
  -- for all such angles, since a control that is taken off leaves half the angle to the others
  induction controls generalizing angle with
  | nil =>
      have phased : PhasedMap environment [single (.p angle) target] id _ :=
        PhasedMap.wire rfl (Gate.wireMatrix_p angle) targetInRange
      exact phased.eq_phases (fun _ => rfl) fun state => by simp
  | cons control rest ih =>
      have controlInRange : control < width := inRange control (by simp)
      rcases List.nodup_cons.1 distinct with ⟨apart, distinct⟩
      have different : control ≠ target := by
        rintro rfl
        simp at apart
      have phase (turn : ℝ) := PhasedMap.of_phases
        (denote_controlledPhase environment turn different controlInRange targetInRange)
      have halved : 0 ≤ angle / 2.0 ∧ angle / 2.0 ≤ Real.pi / 2 := by
        have := Real.pi_pos
        norm_num
        rcases fraction with rfl | fraction <;> constructor <;> linarith
      have rest_eq := PhasedMap.of_phases (ih (.inr halved) distinct fun qubit listed =>
        inRange qubit (List.mem_cons_of_mem _ listed))
      cases rest with
      | nil =>
          simpa using denote_singlyControlledPhase environment fraction different controlInRange
            targetInRange
      | cons next rest =>
          have outside : control ∉ (next :: rest).reverse :=
            fun listed => apart (List.mem_append_left _ (List.mem_reverse.1 listed))
          have not := PhasedMap.of_map (denote_multiControlledNot environment (by simp) outside
            controlInRange)
          have phased := ((((phase (angle / 2.0)).append not).append
            (phase (-angle / 2.0))).append not).append rest_eq
          have back := congrFun
            (Operator.flipWhere_involutive controlInRange (Operator.ignores_allOnes outside))
          apply phased.eq_phases back
          intro state
          have flipped := Operator.bit_flipWhere_same controlInRange
            (fun state => state.allOnes (next :: rest).reverse) state
          have kept := Operator.bit_flipWhere_other different.symm
            (fun state => state.allOnes (next :: rest).reverse) state
          have same : state.allOnes (next :: rest).reverse = state.allOnes (next :: rest) :=
            state.allOnes_congr fun _ => List.mem_reverse
          have sum_eq := halves_add angle (state.bit control) (state.allOnes (next :: rest))
            (state.bit target)
          simp only [Function.comp_apply, id_eq] at back ⊢
          rw [back, flipped, kept, same, state.allOnes_cons control, ← sum_eq]
          norm_num

section Toffoli

/-- The gates of the doubly controlled not between the changes of basis. -/
def targetPhases (control other target : ℕ) : List (Instruction ℝ) :=
  [ controlledNot other target, single .tdg target, controlledNot control target,
    single .t target, controlledNot other target, single .tdg target,
    controlledNot control target, single .t other, single .t target ]

/-- The gates of the doubly controlled not behind the changes of basis. -/
def controlPhases (control other : ℕ) : List (Instruction ℝ) :=
  [ controlledNot control other, single .t control, single .tdg other,
    controlledNot control other ]

theorem toffoli_eq (control other target : ℕ) :
    toffoli control other target =
      single .h target :: (targetPhases control other target ++ [single .h target]) ++
        controlPhases control other :=
  rfl

variable {control other target : ℕ} (different : control ≠ other) (different' : control ≠ target)
  (different'' : other ≠ target) (controlInRange : control < width) (otherInRange : other < width)
  (targetInRange : target < width)

include different' different'' otherInRange targetInRange in
theorem denote_targetPhases :
    denote environment (targetPhases control other target) =
      Operator.phases fun state =>
        angleIf (state.bit other ^^ state.bit target) (-Real.pi / 4) +
          angleIf (state.bit control ^^ (state.bit other ^^ state.bit target)) (Real.pi / 4) +
          angleIf (state.bit control ^^ state.bit target) (-Real.pi / 4) +
          angleIf (state.bit other) (Real.pi / 4) + angleIf (state.bit target) (Real.pi / 4) := by
  have not := PhasedMap.of_map (denote_controlledNot environment different' targetInRange)
  have not' := PhasedMap.of_map (denote_controlledNot environment different'' targetInRange)
  have t {qubit : ℕ} (inRange : qubit < width) : PhasedMap environment [single .t qubit] id _ :=
    PhasedMap.wire rfl Gate.wireMatrix_t inRange
  have tdg : PhasedMap environment [single .tdg target] id _ :=
    PhasedMap.wire rfl Gate.wireMatrix_tdg targetInRange
  have phased := (((((((not'.append tdg).append not).append (t targetInRange)).append
    not').append tdg).append not).append (t otherInRange)).append (t targetInRange)
  have twice (first second third : Bool) :
      (second ^^ (first ^^ (second ^^ third))) = (first ^^ third) := by
    rw [Bool.xor_left_comm, Bool.xor_left_comm second, ← Bool.xor_assoc second, Bool.xor_self,
      Bool.false_xor]
  apply phased.eq_phases
  · intro state
    simp [Operator.flipWhere, Basis.bit_set_other _ different', Basis.bit_set_other _ different'',
      targetInRange, twice]
  · intro state
    simp [Operator.flipWhere, Basis.bit_set_other _ different', Basis.bit_set_other _ different'',
      targetInRange, twice]

include different otherInRange controlInRange in
theorem denote_controlPhases :
    denote environment (controlPhases control other) =
      Operator.phases fun state =>
        angleIf (state.bit control) (Real.pi / 4) +
          angleIf (state.bit control ^^ state.bit other) (-Real.pi / 4) := by
  have not := PhasedMap.of_map (denote_controlledNot environment different otherInRange)
  have t : PhasedMap environment [single .t control] id _ :=
    PhasedMap.wire rfl Gate.wireMatrix_t controlInRange
  have tdg : PhasedMap environment [single .tdg other] id _ :=
    PhasedMap.wire rfl Gate.wireMatrix_tdg otherInRange
  apply (((not.append t).append tdg).append not).eq_phases
  · intro state
    simp [Operator.flipWhere, Basis.bit_set_other _ different, otherInRange]
  · intro state
    simp [Operator.flipWhere, Basis.bit_set_other _ different, otherInRange]

/-- The phase of three conditions: quarters of it on their sums. -/
theorem quarters_add (first second third : Bool) :
    (angleIf (second ^^ third) (-Real.pi / 4) +
        angleIf (first ^^ (second ^^ third)) (Real.pi / 4) +
        angleIf (first ^^ third) (-Real.pi / 4) + angleIf second (Real.pi / 4) +
        angleIf third (Real.pi / 4)) +
      (angleIf first (Real.pi / 4) + angleIf (first ^^ second) (-Real.pi / 4)) =
    angleIf (first && (second && third)) Real.pi := by
  cases first <;> cases second <;> cases third <;> simp [angleIf] <;> ring

include different different' different'' controlInRange otherInRange targetInRange in
theorem denote_toffoli :
    denote environment (toffoli control other target) =
      Operator.ofMap
        (Operator.flipWhere target fun state => state.allOnes [control, other]) := by
  have apart : target ∉ [control, other] := by simp [different'.symm, different''.symm]
  -- the gates behind the second change of basis leave the target alone
  have pass := Operator.phases_commute_onWire targetInRange
    ((Operator.ignores_bit different').map₂ (Operator.ignores_bit different'') fun first second =>
      angleIf first (Real.pi / 4) + angleIf (first ^^ second) (-Real.pi / 4)) (Gate.wireMatrix .h)
  rw [toffoli_eq, denote_append, denote_between_h,
    denote_targetPhases environment different' different'' otherInRange targetInRange,
    denote_controlPhases environment different controlInRange otherInRange,
    ← Operator.hadamard_mul_onesPhase_mul apart targetInRange, Operator.onesPhase_neg_one,
    ← mul_assoc, ← mul_assoc, Operator.hadamard, pass.eq, mul_assoc (Operator.onWire _ _),
    Operator.phases_mul]
  congr 3
  funext state
  rw [add_comm, quarters_add]
  simp

end Toffoli

theorem denote_multiControlledSign {controls : List ℕ} {target : ℕ}
    (distinct : (controls ++ [target]).Nodup)
    (inRange : ∀ qubit ∈ controls ++ [target], qubit < width) :
    denote environment (multiControlledSign controls target) =
      Operator.onesPhase (controls ++ [target]) (-1) := by
  have targetInRange : target < width := inRange target (by simp)
  unfold multiControlledSign
  split
  · rw [denote_cons, denote_nil, one_mul]
    exact Instruction.operator_cz environment _
  · rename_i control other
    have apart : target ∉ [control, other] := (List.nodup_append_comm.1 distinct).notMem
    have different : control ≠ target ∧ other ≠ target := by simpa [eq_comm] using apart
    have not_eq := Instruction.operator_ccx environment different.1 different.2 targetInRange
    have sign_eq := Operator.hadamard_mul_ofMap_mul apart targetInRange
    have between := denote_between_h environment [onQubits .ccx [control, other, target]] target
    rw [denote_cons _ _ [], denote_nil, one_mul, not_eq] at between
    simp only [Basis.allOnes_cons, Basis.allOnes_nil, Bool.and_true] at sign_eq
    exact between.trans sign_eq
  · have perm : (controls.reverse ++ [target]).Perm (controls ++ [target]) :=
      (List.reverse_perm controls).append_right [target]
    rw [Scalar.exact_pi, denote_multiControlledPhase environment (.inl rfl)
      (perm.nodup_iff.2 distinct)
      fun qubit listed => inRange qubit (perm.mem_iff.1 listed), Operator.onesPhase_neg_one]
    congr 1
    funext state
    have same : state.allOnes controls.reverse = state.allOnes controls :=
      state.allOnes_congr fun _ => List.mem_reverse
    rw [same]
    simp

/-- The rules keep the operator. -/
theorem Rule.denote_eq {rules : LoweringRules} {instruction : Instruction ℝ}
    {expanded : List (Instruction ℝ)} (rule : Rule rules instruction expanded)
    (wellFormed : instruction.WellFormed width) :
    denote environment expanded = instruction.operator environment := by
  cases rule with
  | cz control target =>
      rcases wellFormed.pair with ⟨-, inRange, different⟩
      rw [denote_controlledSign environment different inRange]
      exact (Instruction.operator_cz environment _).symm
  | swap first second =>
      rcases wellFormed.pair with ⟨inRange, inRange', different⟩
      rw [denote_exchange environment different inRange inRange',
        Instruction.operator_swap environment different inRange inRange']
  | cp on angle control target =>
      rcases wellFormed.pair with ⟨inRange, inRange', different⟩
      have phase_eq : (double (.cp angle) control target).operator environment =
          Operator.onesPhase [control, target] (exp (angle * I)) :=
        Instruction.operator_cp environment angle _
      rw [denote_controlledPhase environment angle different inRange inRange', phase_eq,
        Operator.onesPhase_eq_phases]
      simp
  | ccx control other target =>
      obtain ⟨inRange, inRange', inRange'', different, different', different''⟩ :=
        wellFormed.triple
      rw [denote_toffoli environment different different' different'' inRange inRange' inRange'',
        Instruction.operator_ccx environment different' different'' inRange'']
      simp
  | mcz _ _ target =>
      rw [denote_multiControlledSign environment wellFormed.distinct wellFormed.inRange]
      exact (Instruction.operator_mcz environment _ _).symm

theorem denote_expandAll (rules : LoweringRules) {instructions : List (Instruction ℝ)}
    (wellFormed : ∀ instruction ∈ instructions, instruction.WellFormed width) :
    denote environment (expandAll rules instructions) = denote environment instructions := by
  induction instructions with
  | nil => rfl
  | cons instruction rest ih =>
      rcases List.forall_mem_cons.1 wellFormed with ⟨head, tail⟩
      have part_eq : denote environment ((expand? rules instruction).getD [instruction]) =
          instruction.operator environment := by
        cases found : expand? rules instruction with
        | none => exact one_mul _
        | some expanded => exact (Rule.of_expand? head.arity found).denote_eq environment head
      rw [← List.singleton_append, expandAll_append, denote_append, ih tail, denote_append,
        denote_cons, denote_nil, one_mul, ← part_eq]
      simp [expandAll]

theorem denote_iterate_expandAll (rules : LoweringRules) {instructions : List (Instruction ℝ)}
    (wellFormed : ∀ instruction ∈ instructions, instruction.WellFormed width) (passes : ℕ) :
    denote environment ((expandAll rules)^[passes] instructions) =
      denote environment instructions := by
  induction passes generalizing instructions with
  | zero => rfl
  | succ passes ih =>
      rw [Function.iterate_succ_apply, ih (wellFormed_expandAll wellFormed),
        denote_expandAll environment rules wellFormed]

end Lowering

/-- A gate that has a rule, or is not a controlled phase, is lowered to the gate itself. -/
theorem exists_lower_gate (rules : LoweringRules) {gate : Gate ℝ} {qubits : List ℕ}
    (wellFormed : (Instruction.onQubits gate qubits).WellFormed width) (placed : qubits ≠ [])
    (phase : rules.controlledPhase ∨ ∀ angle, gate ≠ .cp angle) :
    ∃ lowered, lower rules [.onQubits gate qubits] = .ok lowered ∧
      denote environment lowered = Operator.embed qubits gate.table := by
  have arity : ∀ instruction ∈ [Instruction.onQubits gate qubits],
      instruction.validateArity = .ok () := by simpa using wellFormed.arity
  have lowerable : Lowering.Lowerable rules (Instruction.onQubits gate qubits) :=
    ⟨rfl, phase.imp_right fun absent angle isPhase => absent angle (Option.some.inj isPhase),
      fun _ _ => placed⟩
  have lower_eq := lower_eq_flatMap arity (by simpa using lowerable)
  refine ⟨_, lower_eq, ?_⟩
  rw [eq_iterate_of_lower_eq_ok arity lower_eq, Lowering.denote_iterate_expandAll environment rules
    (by simpa using wellFormed), denote_cons, denote_nil, one_mul, Instruction.operator_onQubits]

/-- Lowering keeps the operator of every list it accepts exactly.  In particular it accepts signs
with any number of controls, exchanges and doubly controlled nots, and controlled phases where
there is a rule for them, and makes lists with the operators of these gates from them.  The operands
of a sign are counted in 32 bits, as the width of a register is. -/
theorem denote_lower (rules : LoweringRules) :
    (∀ instructions lowered,
      (∀ instruction ∈ instructions, instruction.validate width = .ok ()) →
        lower rules instructions = .ok lowered →
          denote environment lowered = denote environment instructions) ∧
    (width < wrapLimit → ∀ controls qubits, 1 ≤ controls → qubits.length = controls + 1 →
      qubits.Nodup → (∀ qubit ∈ qubits, qubit < width) →
        ∃ lowered, lower rules [.onQubits (.mcz controls) qubits] = .ok lowered ∧
          denote environment lowered =
            Matrix.diagonal fun state => if ∀ qubit ∈ qubits, state.bit qubit then -1 else 1) ∧
    ∀ gate qubits, (Instruction.onQubits gate qubits).validate width = .ok () →
      (gate = .cz ∨ gate = .swap ∨ gate = .ccx ∨
        rules.controlledPhase ∧ ∃ angle, gate = .cp angle) →
        ∃ lowered, lower rules [.onQubits gate qubits] = .ok lowered ∧
          denote environment lowered = Operator.embed qubits gate.table := by
  refine ⟨?_, ?_, ?_⟩
  · intro instructions lowered valid accepted
    have wellFormed : ∀ instruction ∈ instructions, instruction.WellFormed width :=
      fun instruction listed => (instruction.validate_eq_ok_iff width).1 (valid instruction listed)
    rw [eq_iterate_of_lower_eq_ok (fun instruction listed => (wellFormed instruction listed).arity)
      accepted, Lowering.denote_iterate_expandAll environment rules wellFormed]
  · intro narrow controls qubits controlled length distinct inRange
    have fits : qubits.length ≤ width := by
      simpa using (List.subperm_of_subset distinct
        fun qubit listed => List.mem_range.2 (inRange qubit listed)).length_le
    have arity_eq : qubits.length = (Gate.mcz controls : Gate ℝ).arity := by
      rw [length, Gate.arity, wrappingSucc_of_lt (by omega)]
    have wellFormed : (Instruction.onQubits (.mcz controls : Gate ℝ) qubits).WellFormed width :=
      Instruction.wellFormed_onQubits_iff.2
        ⟨by simpa using Nat.one_le_iff_ne_zero.1 controlled, arity_eq, inRange, distinct⟩
    obtain ⟨lowered, lower_eq, denote_eq⟩ := exists_lower_gate environment rules wellFormed
      (List.ne_nil_of_length_eq_add_one length) (.inr (by simp))
    refine ⟨lowered, lower_eq, denote_eq.trans ?_⟩
    have sign_eq := Instruction.operator_mcz environment controls qubits
    rw [Instruction.operator_onQubits] at sign_eq
    simpa [Operator.onesPhase, Basis.allOnes] using sign_eq
  · rintro gate qubits valid kind
    have wellFormed := ((Instruction.onQubits gate qubits).validate_eq_ok_iff width).1 valid
    have placed : qubits ≠ [] := by
      rintro rfl
      have length := ((Instruction.validateArity_apply_iff gate []).1 wellFormed.arity).2
      rcases kind with rfl | rfl | rfl | ⟨-, angle, rfl⟩ <;> cases length
    apply exists_lower_gate environment rules wellFormed placed
    rcases kind with rfl | rfl | rfl | ⟨on, -⟩
    · exact .inr (by simp)
    · exact .inr (by simp)
    · exact .inr (by simp)
    · exact .inl on

/-- A sign with three controls, lowered without the rule for controlled phases. -/
theorem denote_lower_three_controls :
    let environment : Environment 4 := ⟨fun _ => 1, fun _ => 0, fun _ => 1, 1⟩
    ∃ lowered, lower ⟨false⟩ [.onQubits (.mcz 3) [2, 0, 3, 1]] = .ok lowered ∧
      denote environment lowered =
        (Matrix.diagonal fun state : Basis 4 =>
          if ∀ qubit ∈ [2, 0, 3, 1], state.bit qubit then -1 else 1) ∧
      denote environment lowered =
        denote environment [.onQubits (.mcz 3) [2, 0, 3, 1]] := by
  intro environment
  rcases denote_lower environment ⟨false⟩ with ⟨exactly, signs, -⟩
  obtain ⟨lowered, lower_eq, denote_eq⟩ :=
    signs (by decide) 3 [2, 0, 3, 1] (by decide) rfl (by decide) (by decide)
  refine ⟨lowered, lower_eq, denote_eq, exactly _ lowered ?_ lower_eq⟩
  intro instruction listed
  rcases List.mem_singleton.1 listed with rfl
  rfl

end Anyonic
