import Anyonic.Proofs.Lowering.Outcome

/-!
# Lowering is local

All instructions of a list are lowered in the same passes, and one instruction that has no rule
stops them all.  Still no instruction depends on its neighbours: what is lowered together is what is
lowered piece by piece, and there are no other reasons for it to fail.
-/

namespace Anyonic

variable {α : Type} [Scalar α] {rules : LoweringRules}

theorem lower_append_eq_ok_iff {first second lowered : List (Instruction α)} :
    lower rules (first ++ second) = .ok lowered ↔
      ∃ front back, lower rules first = .ok front ∧ lower rules second = .ok back ∧
        lowered = front ++ back := by
  simp only [lower_eq_ok_iff, List.forall_mem_append, List.flatMap_append]
  constructor
  · rintro ⟨⟨accepted, accepted'⟩, rfl⟩
    exact ⟨_, _, ⟨accepted, rfl⟩, ⟨accepted', rfl⟩, rfl⟩
  · rintro ⟨front, back, ⟨accepted, rfl⟩, ⟨accepted', rfl⟩, rfl⟩
    exact ⟨⟨accepted, accepted'⟩, rfl⟩

theorem lower_eq_ok_iff_forall₂ {instructions lowered : List (Instruction α)} :
    lower rules instructions = .ok lowered ↔
      ∃ parts, List.Forall₂ (fun instruction part => lower rules [instruction] = .ok part)
          instructions parts ∧ lowered = parts.flatten := by
  induction instructions generalizing lowered with
  | nil => simp [lower_eq_ok_iff]
  | cons instruction rest ih =>
      have split : instruction :: rest = [instruction] ++ rest := rfl
      rw [split, lower_append_eq_ok_iff]
      constructor
      · rintro ⟨own, others, own_eq, others_eq, rfl⟩
        rcases ih.1 others_eq with ⟨parts, lowered, rfl⟩
        exact ⟨own :: parts, .cons own_eq lowered, rfl⟩
      · rintro ⟨parts, lowered, rfl⟩
        cases lowered with
        | cons own_eq others_eq => exact ⟨_, _, own_eq, ih.2 ⟨_, others_eq, rfl⟩, rfl⟩

/--
Two lists are lowered together exactly if each of them is lowered, and then to what they are lowered
to one behind the other.  A list is therefore lowered instruction by instruction.
-/
theorem lower_local (rules : LoweringRules) :
    (∀ first second lowered : List (Instruction α),
      lower rules (first ++ second) = .ok lowered ↔
        ∃ front back, lower rules first = .ok front ∧ lower rules second = .ok back ∧
          lowered = front ++ back) ∧
    ∀ instructions lowered : List (Instruction α),
      lower rules instructions = .ok lowered ↔
        ∃ parts, (instructions.mapM fun instruction => lower rules [instruction]) = .ok parts ∧
          lowered = parts.flatten := by
  refine ⟨fun _ _ _ => lower_append_eq_ok_iff, ?_⟩
  intro instructions lowered
  simp only [mapM_eq_ok_iff]
  exact lower_eq_ok_iff_forall₂

end Anyonic
