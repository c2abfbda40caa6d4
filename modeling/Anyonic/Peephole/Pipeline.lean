import Anyonic.Peephole.CliffordSweep
import Anyonic.Peephole.Commutation
import Anyonic.Peephole.GateMerging
import Anyonic.Peephole.InverseCancellation
import Anyonic.Peephole.WireTemplate

/-!
# Pipelines of passes

A pipeline sweeps over its passes in order, again and again until a whole sweep changes nothing or
the number of sweeps is used up.  A pass that would make the list longer is not taken.
-/

namespace Anyonic.Peephole

variable {α : Type}

/-- A rewriting of instruction lists. -/
structure Pass (α : Type) where
  name : String
  run : List (Instruction α) → List (Instruction α)
  /-- Whether the pass is worth running on a list. -/
  applies : List (Instruction α) → Bool := fun _ => true

/-- Passes, with the number of sweeps over them. -/
structure Pipeline (α : Type) where
  passes : List (Pass α) := []
  sweeps : Nat := 1

/-- The state of a run: the list, and the names of the passes that have changed it. -/
structure Progress (α : Type) where
  instructions : List (Instruction α)
  applied : List String := []

namespace Progress

/-- Note that a pass has changed the list. -/
def record (progress : Progress α) (name : String) (instructions : List (Instruction α)) :
    Progress α :=
  { instructions
    applied :=
      if progress.applied.contains name then progress.applied else progress.applied ++ [name] }

end Progress

section Passes

variable [Scalar α]

/-- The pass that cancels neighbouring inverses. -/
def Pass.cancelInverses : Pass α := { name := "CancelInverses", run := Peephole.cancelInverses }

/-- The pass that merges neighbouring gates. -/
def Pass.mergeGates : Pass α := { name := "MergeAdjacentGates", run := Peephole.mergeGates }

/-- The pass that moves Clifford gates to the front. -/
def Pass.cliffordsFirst : Pass α :=
  { name := "CommuteCliffordsLeft", run := Peephole.cliffordsFirst }

/-- The pass that cancels inverses through commuting instructions. -/
def Pass.cancelThroughCommuting : Pass α :=
  { name := "CommutationCancellation"
    run := Peephole.cancelThroughCommuting
    applies := fun instructions => 2 ≤ instructions.length }

/-- The pass that replaces templates. -/
def Pass.applyTemplates : Pass α :=
  { name := "TemplateMatch", run := Peephole.applyTemplatesUntilStable }

end Passes

namespace Pipeline

variable [Scalar α]

/-- The most sweeps of the most thorough pipeline. -/
def thoroughSweeps : Nat := 10

/-- The pipeline of an optimisation level; there is nothing above level two. -/
def ofLevel : (level : Nat) → Pipeline α
  | 0 => {}
  | 1 => { passes := [.cancelInverses, .mergeGates] }
  | _ =>
      { passes := [.cancelThroughCommuting, .applyTemplates, .cancelInverses, .mergeGates]
        sweeps := thoroughSweeps }

/-- Add a pass at the end. -/
def add (pipeline : Pipeline α) (pass : Pass α) : Pipeline α :=
  { pipeline with passes := pipeline.passes ++ [pass] }

/-- Choose the number of sweeps; there is at least one. -/
def withSweeps (pipeline : Pipeline α) (sweeps : Nat) : Pipeline α :=
  { pipeline with sweeps := max sweeps 1 }

/-- Run one pass; the second component tells whether it has changed the list. -/
def attempt (state : Progress α × Bool) (pass : Pass α) : Progress α × Bool :=
  let (progress, changed) := state
  if pass.applies progress.instructions then
    let candidate := pass.run progress.instructions
    if progress.instructions.length < candidate.length then (progress, changed)
    else if candidate != progress.instructions then (progress.record pass.name candidate, true)
    else (progress, changed)
  else (progress, changed)

/-- Run every pass once. -/
def sweep (passes : List (Pass α)) (progress : Progress α) : Progress α × Bool :=
  passes.foldl attempt (progress, false)

/-- Sweep until nothing changes, at most the given number of times. -/
def sweepUpTo (passes : List (Pass α)) : (sweeps : Nat) → Progress α → Progress α
  | 0, progress => progress
  | sweeps + 1, progress =>
      match sweep passes progress with
      | (next, true) => sweepUpTo passes sweeps next
      | (next, false) => next

/-- Run a pipeline. -/
def run (pipeline : Pipeline α) (instructions : List (Instruction α)) : Progress α :=
  sweepUpTo pipeline.passes pipeline.sweeps { instructions }

end Pipeline

end Anyonic.Peephole
