import Anyonic.Proofs.Double.Laws
import Anyonic.Proofs.Peephole.Commutation

/-!
# The commutation test on rounded angles

The commutation test does not depend on the order in which it is given two instructions.  It is
also sound for the angles that the compiler works with: give every angle the real number that it
stands for as its value, or any other real number, and the operators of instructions that pass the
test commute.  All but one of the reasons to pass do not look at angles, so that the instructions
pass with the values of their angles too.  The remaining reason is that angles are equal up to
rounding.  Their values need not be, but turns of the same kind commute whatever their angles.
-/

namespace Anyonic

variable {α β : Type}

namespace Gate

/-- The gate with the value of its angle. -/
def map (value : α → β) : Gate α → Gate β
  | .identity => .identity
  | .h => .h
  | .x => .x
  | .y => .y
  | .z => .z
  | .s => .s
  | .sdg => .sdg
  | .t => .t
  | .tdg => .tdg
  | .rx angle => .rx (value angle)
  | .ry angle => .ry (value angle)
  | .rz angle => .rz (value angle)
  | .p angle => .p (value angle)
  | .cx => .cx
  | .cz => .cz
  | .swap => .swap
  | .cp angle => .cp (value angle)
  | .ccx => .ccx
  | .mcz controls => .mcz controls

variable (value : α → β)

@[simp]
theorem arity_map (gate : Gate α) : (gate.map value).arity = gate.arity := by
  cases gate <;> rfl

theorem eq_mcz_of_map_eq {gate : Gate α} {controls : ℕ} (map_eq : gate.map value = .mcz controls) :
    gate = .mcz controls := by
  cases gate <;> cases map_eq
  rfl

theorem map_turn (turn : Turn) (angle : α) :
    (turn.gate angle).map value = turn.gate (value angle) := by
  cases turn <;> rfl

@[simp]
theorem isDiagonal_map [Scalar α] [Scalar β] (gate : Gate α) :
    (gate.map value).isDiagonal = gate.isDiagonal := by
  cases gate <;> rfl

theorem approxEq_symm [Scalar α] [LawfulScalar α] {first second : Gate α}
    (same : first.approxEq second) : second.approxEq first := by
  rcases approxEq_cases same with ⟨rfl, -⟩ | ⟨turn, angle, angle', rfl, rfl, close⟩
  · exact same
  · rw [LawfulScalar.sameAngle_comm] at close
    cases turn <;> exact close

end Gate

namespace Instruction

/-- The instruction with the value of its angle. -/
def map (value : α → β) (instruction : Instruction α) : Instruction β where
  operation :=
    match instruction.operation with
    | .apply gate => .apply (gate.map value)
    | .measure => .measure
    | .barrier => .barrier
    | .reset => .reset
  qubits := instruction.qubits

section Map

variable (value : α → β)

@[simp]
theorem qubits_map (instruction : Instruction α) :
    (instruction.map value).qubits = instruction.qubits :=
  rfl

@[simp]
theorem map_onQubits (gate : Gate α) (qubits : List ℕ) :
    (onQubits gate qubits).map value = onQubits (gate.map value) qubits :=
  rfl

/-- Whether an instruction is well formed does not depend on angles. -/
theorem WellFormed.map {instruction : Instruction α} {width : ℕ}
    (wellFormed : instruction.WellFormed width) :
    (instruction.map value).WellFormed width := by
  refine ⟨?_, wellFormed.inRange, wellFormed.distinct⟩
  have arity := wellFormed.arity
  rcases instruction with ⟨operation, qubits⟩
  cases operation with
  | apply gate =>
      rcases (validateArity_apply_iff gate qubits).1 arity with ⟨controlled, length⟩
      apply (validateArity_apply_iff (gate.map value) qubits).2
      exact ⟨fun bare => controlled (Gate.eq_mcz_of_map_eq value bare), by simpa using length⟩
  | _ => exact arity

@[simp]
theorem isIdentity_map (instruction : Instruction α) :
    (instruction.map value).isIdentity = instruction.isIdentity := by
  rcases instruction with ⟨operation, qubits⟩
  cases operation with
  | apply gate => cases gate <;> rfl
  | _ => rfl

@[simp]
theorem overlaps_map (first second : Instruction α) :
    (first.map value).overlaps (second.map value) = first.overlaps second := by
  have spansAll_map (instruction : Instruction α) :
      (instruction.map value).spansAll = instruction.spansAll := by
    rcases instruction with ⟨operation, qubits⟩
    cases operation <;> rfl
  simp [overlaps, spansAll_map]

theorem passesControlledNot_map [Scalar α] [Scalar β] (single controlledNot : Instruction α)
    (gate : Gate α) :
    (single.map value).passesControlledNot (controlledNot.map value) (gate.map value) =
      single.passesControlledNot controlledNot gate := by
  cases gate <;> rfl

end Map

theorem overlaps_comm (first second : Instruction α) :
    first.overlaps second = second.overlaps first := by
  have shared : first.qubits.any second.qubits.contains =
      second.qubits.any first.qubits.contains := by
    rw [Bool.eq_iff_iff]
    simp [and_comm]
  rw [overlaps, overlaps, shared, Bool.or_comm first.spansAll]

section Symmetry

variable [Scalar α] [LawfulScalar α]

theorem gatesCommute_symm {first second : Instruction α} {gate other : Gate α}
    (passes : gatesCommute first second gate other) : gatesCommute second first other gate := by
  simp only [gatesCommute, Bool.or_eq_true, Bool.and_eq_true, beq_iff_eq] at passes ⊢
  rcases passes with (⟨isDiagonal, isDiagonal'⟩ | ⟨same, operands⟩) | passes
  · exact .inl (.inl ⟨isDiagonal', isDiagonal⟩)
  · exact .inl (.inr ⟨Gate.approxEq_symm same, operands.symm⟩)
  · right
    split at passes
    -- The first of two controlled nots is looked at as such, and the other is no single-qubit gate.
    · cases other with
      | cx => cases passes
      | _ => exact passes
    · exact passes
    · cases passes

theorem commutes_symm {first second : Instruction α} (passes : first.commutes second) :
    second.commutes first := by
  simp only [commutes, Bool.or_eq_true] at passes ⊢
  rcases passes with ((identity | identity) | apart) | passes
  · exact .inl (.inl (.inr identity))
  · exact .inl (.inl (.inl identity))
  · rw [overlaps_comm] at apart
    exact .inl (.inr apart)
  · right
    split at passes
    · rename_i first_eq second_eq
      rw [first_eq, second_eq]
      exact gatesCommute_symm passes
    · cases passes

end Symmetry

section Soundness

variable [Scalar α]

/-- Of the reasons for gates to commute only one looks at angles. -/
theorem gatesCommute_map [Scalar β] {first second : Instruction α} {gate other : Gate α}
    (value : α → β) (passes : gatesCommute first second gate other) :
    gatesCommute (first.map value) (second.map value) (gate.map value) (other.map value) ∨
      gate.approxEq other ∧ first.qubits = second.qubits := by
  simp only [gatesCommute, Bool.or_eq_true, Bool.and_eq_true, beq_iff_eq, Gate.isDiagonal_map]
    at passes ⊢
  rcases passes with (isDiagonal | same) | passes
  · exact .inl (.inl (.inl isDiagonal))
  · exact .inr same
  · refine .inl (.inr ?_)
    split at passes
    · exact (passesControlledNot_map value second first other).trans passes
    · rename_i different
      cases gate with
      | cx => exact absurd rfl different
      | _ => exact (passesControlledNot_map value first second _).trans passes
    · cases passes

theorem commutes_map [Scalar β] {first second : Instruction α} (value : α → β)
    (passes : first.commutes second) :
    (first.map value).commutes (second.map value) ∨
      ∃ gate other qubits, first = onQubits gate qubits ∧ second = onQubits other qubits ∧
        gate.approxEq other := by
  simp only [commutes, Bool.or_eq_true, isIdentity_map, overlaps_map] at passes ⊢
  rcases passes with passes | passes
  · exact .inl (.inl passes)
  · rcases first with ⟨operation, qubits⟩
    rcases second with ⟨operation', qubits'⟩
    cases operation with
    | apply gate =>
        cases operation' with
        | apply other =>
            rcases gatesCommute_map value passes with passes | ⟨same, operands⟩
            · exact .inl (.inr passes)
            · obtain rfl : qubits = qubits' := operands
              exact .inr ⟨gate, other, qubits, rfl, rfl, same⟩
        | _ => cases passes
    | _ => cases passes

theorem operator_map_commute_of_commutes {width : ℕ} (environment : Environment width)
    (value : α → ℝ) {first second : Instruction α} (wellFormed : first.WellFormed width)
    (wellFormed' : second.WellFormed width) (passes : first.commutes second) :
    Commute ((first.map value).operator environment)
      ((second.map value).operator environment) := by
  have mapped := wellFormed.map value
  have mapped' := wellFormed'.map value
  rcases commutes_map value passes with passes | ⟨gate, other, qubits, rfl, rfl, same⟩
  · exact operator_commute_of_commutes environment mapped mapped' passes
  -- The values of the angles may be too far apart to pass the test.
  · rcases Gate.approxEq_cases same with ⟨rfl, -⟩ | ⟨turn, angle, angle', rfl, rfl, -⟩
    · exact Commute.refl _
    · simp only [map_onQubits, Gate.map_turn] at mapped mapped' ⊢
      exact turn.operator_commute environment mapped mapped'

/--
The commutation test is symmetric, and sound for every choice of real values for angles (the angles
themselves, if they are real numbers) and for whatever measurements, resets and barriers do to
their qubits.
-/
theorem commutes_symmetric_sound [LawfulScalar α] (first second : Instruction α) :
    first.commutes second = second.commutes first ∧
      ∀ (width : ℕ) (environment : Environment width) (value : α → ℝ),
        first.validate width = .ok () → second.validate width = .ok () → first.commutes second →
          Commute ((first.map value).operator environment)
            ((second.map value).operator environment) := by
  refine ⟨Bool.eq_iff_iff.2 ⟨commutes_symm, commutes_symm⟩, ?_⟩
  intro width environment value valid valid' passes
  rw [validate_eq_ok_iff] at valid valid'
  exact operator_map_commute_of_commutes environment value valid valid' passes

/--
A turn about the first axis on the target of a controlled not, a phase on a control of a controlled
sign, turns whose angles are equal up to rounding, and a measurement beside a controlled not.
-/
theorem commutes_symmetric_sound_doubles :
    let pairs : List (Instruction Float × Instruction Float) :=
      [(.double .cx 0 1, .single (.rx 0.25) 1), (.onQubits (.mcz 2) [2, 0, 3], .single (.p 0.5) 0),
        (.single (.ry 0.1) 2, .single (.ry 0.10000000001) 2), (⟨.measure, [3]⟩, .double .cx 0 1)]
    ∀ pair ∈ pairs, pair.1.commutes pair.2 ∧ pair.2.commutes pair.1 ∧
      ∀ environment : Environment 4,
        Commute ((pair.1.map Double.toReal).operator environment)
          ((pair.2.map Double.toReal).operator environment) := by
  intro pairs pair listed
  have valid : pair.1.validate 4 = .ok () ∧ pair.2.validate 4 = .ok () := by
    revert pair
    simp only [pairs, List.forall_mem_cons, List.not_mem_nil, false_imp_iff, implies_true, and_true]
    exact ⟨⟨rfl, rfl⟩, ⟨rfl, rfl⟩, ⟨rfl, rfl⟩, ⟨rfl, rfl⟩⟩
  have passes : pair.1.commutes pair.2 := by
    revert pair
    decide +kernel
  rcases commutes_symmetric_sound pair.1 pair.2 with ⟨symmetric, sound⟩
  exact ⟨passes, symmetric ▸ passes, fun environment =>
    sound 4 environment Double.toReal valid.1 valid.2 passes⟩

end Soundness

end Instruction

end Anyonic
