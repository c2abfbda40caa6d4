import Anyonic.Proofs.Operator.Gates
import Anyonic.Proofs.Peephole.Angles

/-!
# Inverse gates

A gate followed by its inverse on the same operands, up to the order in which the gate takes them
for the same, is the identity.
-/

namespace Anyonic

open Complex (I exp)

variable {width : ℕ} (environment : Environment width)

namespace Gate

theorem sameOperands_inverse (gate : Gate ℝ) (first second : List ℕ) :
    gate.inverse.sameOperands first second = gate.sameOperands first second := by
  cases gate <;> rfl

/-- A gate takes operands for the same only if it has the same operator on them. -/
theorem operator_eq_of_sameOperands {gate : Gate ℝ} {first second : List ℕ}
    (wellFormed : (Instruction.onQubits gate first).WellFormed width)
    (wellFormed' : (Instruction.onQubits gate second).WellFormed width)
    (same : gate.sameOperands first second) :
    (Instruction.onQubits gate first).operator environment =
      (Instruction.onQubits gate second).operator environment := by
  have perm : first.Perm second := perm_of_sameOperands wellFormed.distinct same
  have phase (factor : ℂ) :
      (Operator.onesPhase first factor : Operator width) = Operator.onesPhase second factor :=
    Operator.onesPhase_congr (fun _ => perm.mem_iff) factor
  cases gate with
  | cz => simpa only [Instruction.operator_cz] using phase (-1)
  | mcz controls => simpa only [Instruction.operator_mcz] using phase (-1)
  | cp angle => simpa only [Instruction.operator_cp] using phase _
  | swap =>
      rcases wellFormed.exists_pair rfl with ⟨a, b, rfl, aInRange, bInRange, different⟩
      rcases wellFormed'.exists_pair rfl with ⟨c, d, rfl, -, -, -⟩
      have operator_eq := Instruction.operator_swap environment different aInRange bInRange
      have operator_eq' := Instruction.operator_swap environment different.symm bInRange aInRange
      obtain ⟨rfl, rfl⟩ | ⟨rfl, rfl⟩ : a = c ∧ b = d ∨ a = d ∧ b = c := by
        have contained : (a = c ∨ a = d) ∧ (b = c ∨ b = d) := by simpa [sameOperands] using same
        grind
      · rfl
      · exact operator_eq.trans ((congrArg Operator.ofMap
          (funext (Operator.exchange_comm a b))).trans operator_eq'.symm)
  | ccx =>
      obtain ⟨a, b, t, rfl, -, -, inRange, -, different, different'⟩ :=
        wellFormed.exists_triple rfl
      rcases wellFormed'.exists_triple rfl with ⟨c, d, u, rfl, -⟩
      have operator_eq := Instruction.operator_ccx environment different different' inRange
      have operator_eq' := Instruction.operator_ccx environment different' different inRange
      obtain ⟨rfl, ⟨rfl, rfl⟩ | ⟨rfl, rfl⟩⟩ : t = u ∧ (a = c ∧ b = d ∨ a = d ∧ b = c) := by
        simpa [sameOperands] using same
      · rfl
      · rw [operator_eq, operator_eq']
        simp only [Bool.and_comm]
  | _ => rw [(by simpa [sameOperands] using same : first.length = second.length ∧ first = second).2]

theorem operator_inverse_mul_of_single {gate : Gate ℝ} {qubits : List ℕ}
    (wellFormed : (Instruction.onQubits gate qubits).WellFormed width)
    (single : gate.arity = 1) (single' : gate.inverse.arity = 1)
    (controlled : gate.inverse ≠ .mcz 0) :
    (Instruction.onQubits gate.inverse qubits).operator environment *
      (Instruction.onQubits gate qubits).operator environment = 1 := by
  rcases Instruction.wellFormed_onQubits_iff.1 wellFormed with ⟨-, length, inRange, distinct⟩
  have wellFormed' : (Instruction.onQubits gate.inverse qubits).WellFormed width :=
    Instruction.wellFormed_onQubits_iff.2
      ⟨controlled, by rw [length, single, single'], inRange, distinct⟩
  rcases wellFormed.operator_wire environment single with ⟨qubit, rfl, inRange, operator_eq⟩
  rcases wellFormed'.operator_wire environment single' with ⟨qubit', same, -, operator_eq'⟩
  obtain rfl : qubit = qubit' := by simpa using same
  rw [operator_eq, operator_eq', Operator.onWire_mul inRange _ (Operator.ignores_const _),
    wireMatrix_inverse_mul, Operator.onWire_one]

/-- A gate followed by its inverse does nothing. -/
theorem operator_inverse_mul {gate : Gate ℝ} {qubits : List ℕ}
    (wellFormed : (Instruction.onQubits gate qubits).WellFormed width) :
    (Instruction.onQubits gate.inverse qubits).operator environment *
      (Instruction.onQubits gate qubits).operator environment = 1 := by
  have sign : (Operator.onesPhase qubits (-1) * Operator.onesPhase qubits (-1) : Operator width) =
      1 := by
    rw [Operator.onesPhase_mul, neg_mul_neg, one_mul, Operator.onesPhase_one]
  cases gate with
  | cz => simpa only [inverse, Instruction.operator_cz] using sign
  | mcz controls => simpa only [inverse, Instruction.operator_mcz] using sign
  | cp angle =>
      rw [inverse, Instruction.operator_cp, Instruction.operator_cp, Operator.onesPhase_mul,
        ← Complex.exp_add]
      simp [Operator.onesPhase_one]
  | cx =>
      rcases wellFormed.exists_pair rfl with ⟨control, target, rfl, -, inRange, different⟩
      change (Instruction.double .cx control target).operator environment *
        (Instruction.double .cx control target).operator environment = 1
      rw [Instruction.operator_cx environment different inRange, Operator.ofMap_mul,
        Operator.flipWhere_involutive inRange (Operator.ignores_bit different), Operator.ofMap_id]
  | swap =>
      obtain ⟨first, second, rfl, firstInRange, secondInRange, different⟩ :=
        wellFormed.exists_pair rfl
      change (Instruction.double .swap first second).operator environment *
        (Instruction.double .swap first second).operator environment = 1
      rw [Instruction.operator_swap environment different firstInRange secondInRange,
        Operator.ofMap_mul, Operator.exchange_involutive different firstInRange secondInRange,
        Operator.ofMap_id]
  | ccx =>
      obtain ⟨control, other, target, rfl, -, -, inRange, -, different, different'⟩ :=
        wellFormed.exists_triple rfl
      change (Instruction.onQubits .ccx [control, other, target]).operator environment *
        (Instruction.onQubits .ccx [control, other, target]).operator environment = 1
      rw [Instruction.operator_ccx environment different different' inRange, Operator.ofMap_mul,
        Operator.flipWhere_involutive inRange
          ((Operator.ignores_bit different).map₂ (Operator.ignores_bit different') (· && ·)),
        Operator.ofMap_id]
  | _ => exact operator_inverse_mul_of_single environment wellFormed rfl rfl (by simp [inverse])

end Gate

end Anyonic
