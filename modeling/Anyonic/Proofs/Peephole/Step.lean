import Mathlib.Data.List.Basic
import Mathlib.Logic.Relation
import Anyonic.Peephole.Report

/-!
# Rewriting steps of the optimiser

Everything the optimiser does is a sequence of four kinds of steps: it drops an identity gate,
cancels a gate with a later one that undoes it, merges two neighbours, or replaces a template on a
wire.  What each of these steps keeps is kept by every pass and by every run of a pipeline.

Two kinds of steps rely on a comparison of angles up to rounding.  Which comparisons a step may rely
on is a parameter, so that what holds of all steps and what holds of steps with exact comparisons
can be said of the same relation.
-/

namespace Anyonic

variable {α : Type} [Scalar α]

/-- What stands in the place of two gates that have been multiplied. -/
def Product.instructions (qubits : List ℕ) : Product α → List (Instruction α)
  | .nothing => []
  | .one gate => [.onQubits gate qubits]

namespace Peephole

/-- What is asked when angles are compared. -/
inductive Test where
  /-- Whether the second instruction undoes the first. -/
  | undoes
  /-- Whether the product of the instructions is a full turn. -/
  | fullTurn

/-- A comparison of the angles of two instructions. -/
structure Comparison (α : Type) where
  test : Test
  first : Instruction α
  second : Instruction α

/-- The instructions of a comparison stand in a list, the first before the second. -/
def Comparison.OccursIn (comparison : Comparison α) (instructions : List (Instruction α)) : Prop :=
  [comparison.first, comparison.second].Sublist instructions

/-- One rewriting step of a list of instructions that relies on granted comparisons. -/
inductive StepBy (granted : Comparison α → Prop) :
    List (Instruction α) → List (Instruction α) → Prop where
  /-- An identity gate is dropped. -/
  | drop {before after : List (Instruction α)} {instruction : Instruction α}
      (identity : instruction.isIdentity) :
      StepBy granted (before ++ instruction :: after) (before ++ after)
  /-- A gate and a later one that undoes it are dropped, if all between commute with both. -/
  | cancel {before between after : List (Instruction α)} {first second : Instruction α}
      (undone : first.undoneBy second)
      (commute : ∀ instruction ∈ between,
        instruction.commutes first ∧ instruction.commutes second)
      (reliable : granted ⟨.undoes, first, second⟩) :
      StepBy granted (before ++ first :: (between ++ second :: after))
        (before ++ (between ++ after))
  /-- Two neighbours are replaced by their product. -/
  | merge {before after : List (Instruction α)} {first second : Instruction α}
      {product : Product α} (found : Product.ofInstructions? first second = some product)
      (reliable : granted ⟨.fullTurn, first, second⟩) :
      StepBy granted (before ++ first :: second :: after)
        (before ++ (product.instructions second.qubits ++ after))
  /-- A template is replaced. -/
  | template {before rest replacement remaining : List (Instruction α)}
      {instruction : Instruction α}
      (found : matchTemplate? instruction rest = some (replacement, remaining)) :
      StepBy granted (before ++ instruction :: rest) (before ++ (replacement ++ remaining))

/-- A list that comes from another by steps that rely on granted comparisons. -/
abbrev ReachesBy (granted : Comparison α → Prop) :
    List (Instruction α) → List (Instruction α) → Prop :=
  Relation.ReflTransGen (StepBy granted)

/-- One rewriting step of a list of instructions. -/
abbrev Step : List (Instruction α) → List (Instruction α) → Prop := StepBy fun _ => True

/-- A list that comes from another by rewriting steps. -/
abbrev Reaches : List (Instruction α) → List (Instruction α) → Prop := ReachesBy fun _ => True

variable {granted : Comparison α → Prop} {source target : List (Instruction α)}

namespace StepBy

theorem mono {granted' : Comparison α → Prop} (step : StepBy granted source target)
    (implied : ∀ comparison, granted comparison → granted' comparison) :
    StepBy granted' source target := by
  cases step with
  | drop identity => exact drop identity
  | cancel undone commute reliable => exact cancel undone commute (implied _ reliable)
  | merge found reliable => exact merge found (implied _ reliable)
  | template found => exact template found

theorem behind (step : StepBy granted source target) (front : List (Instruction α)) :
    StepBy granted (front ++ source) (front ++ target) := by
  cases step with
  | drop identity =>
      simp only [← List.append_assoc front]
      exact drop identity
  | cancel undone commute reliable =>
      simp only [← List.append_assoc front]
      exact cancel undone commute reliable
  | merge found reliable =>
      simp only [← List.append_assoc front]
      exact merge found reliable
  | template found =>
      simp only [← List.append_assoc front]
      exact template found

end StepBy

namespace ReachesBy

theorem mono {granted' : Comparison α → Prop} (reaches : ReachesBy granted source target)
    (implied : ∀ comparison, granted comparison → granted' comparison) :
    ReachesBy granted' source target :=
  Relation.ReflTransGen.mono (fun _ _ step => StepBy.mono step implied) _ _ reaches

theorem reaches (reaches : ReachesBy granted source target) : Reaches source target :=
  ReachesBy.mono reaches fun _ _ => trivial

theorem behind (reaches : ReachesBy granted source target) (front : List (Instruction α)) :
    ReachesBy granted (front ++ source) (front ++ target) := by
  induction reaches with
  | refl => exact .refl
  | tail _ step ih => exact ih.tail (step.behind front)

end ReachesBy

end Peephole

end Anyonic
