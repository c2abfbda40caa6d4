import Mathlib
import Anyonic.Proofs.Compile.Halfway

/-!
# The weave of a controlled not

Between its two changes of basis, a controlled not takes the strand of the lower qubit up to that
of the higher one, twists the two around each other, and takes the strand back the way it came.
What is done before the twist is undone behind it and the twist itself is two exchanges of the same
strands, so every strand ends where it began.
-/

namespace Anyonic

/-- The permutation of the strands that exchanges induce, performed from the first to the last. -/
def strandPermutation : List Generator → Equiv.Perm ℕ
  | [] => 1
  | generator :: rest =>
      strandPermutation rest * Equiv.swap generator.index (generator.index + 1)

theorem strandPermutation_append (first second : List Generator) :
    strandPermutation (first ++ second) = strandPermutation second * strandPermutation first := by
  induction first with
  | nil => simp [strandPermutation]
  | cons generator rest ih => simp [strandPermutation, ih, mul_assoc]

/-- Exchanges that are undone in the opposite order bring the strands back. -/
theorem strandPermutation_inverseGenerators (generators : List Generator) :
    strandPermutation (inverseGenerators generators) = (strandPermutation generators)⁻¹ := by
  induction generators with
  | nil => simp [inverseGenerators, strandPermutation]
  | cons generator rest ih =>
      have split_eq : inverseGenerators (generator :: rest) =
          inverseGenerators rest ++ [generator.inverse] := by
        simp [inverseGenerators]
      rw [split_eq, strandPermutation_append, ih]
      simp [strandPermutation, Generator.inverse]

/-- A row of exchanges carries its first strand to its end. -/
theorem strandPermutation_range' (low steps : ℕ) :
    strandPermutation ((List.range' low steps).map Generator.clockwise) low = low + steps := by
  induction steps generalizing low with
  | zero => rfl
  | succ steps ih =>
      have next := ih (low + 1)
      simp only [List.range'_succ, List.map_cons, strandPermutation, Generator.clockwise,
        Equiv.Perm.mul_apply, Equiv.swap_apply_left] at next ⊢
      omega

theorem controlledTwist_comm (first second : ℕ) :
    controlledTwist first second = controlledTwist second first := by
  simp only [controlledTwist, min_comm first second, max_comm first second]

/-- The exchanges between the two changes of basis of a controlled not, for its pair of qubits. -/
def weave : Sym2 ℕ → List Generator :=
  Sym2.lift ⟨controlledTwist, controlledTwist_comm⟩

/-- Counter-clockwise exchanges undo the clockwise ones, in the opposite order. -/
theorem map_counterClockwise_reverse (indices : List ℕ) :
    indices.reverse.map Generator.counterClockwise =
      inverseGenerators (indices.map Generator.clockwise) := by
  rw [inverseGenerators, ← List.map_reverse, List.map_map]
  rfl

/-- A weave comes back the way it went. -/
theorem weave_eq (first second : ℕ) :
    let low := min first second
    let high := max first second
    let approach := (List.range' low (high - low)).map Generator.clockwise
    weave s(first, second) =
      approach ++ [.clockwise high, .clockwise high] ++ inverseGenerators approach := by
  intro low high approach
  rw [weave, Sym2.lift_mk]
  simp only [controlledTwist, map_counterClockwise_reverse]
  rfl

/-- Every strand of a weave ends where it began. -/
theorem strandPermutation_weave (pair : Sym2 ℕ) : strandPermutation (weave pair) = 1 := by
  induction pair with
  | _ first second =>
      simp [weave_eq, strandPermutation_append, strandPermutation_inverseGenerators,
        strandPermutation, Generator.clockwise]

namespace CompileOptions

variable {α : Type} [Scalar α] [Numeral α] {options : CompileOptions α}
  {control target strands : ℕ} {fragment : Fragment α}

/--
The braid of a controlled not is a weave between two copies of the change of basis on the target.
The weave depends on the pair of qubits and not on their roles, nor on the strands or the options.
It carries the lower strand to the higher one, twists, comes back the same way, and leaves no
strand out of its place.
-/
theorem controlledNotFragment_weave
    (compiled : options.controlledNotFragment control target strands = .ok fragment) :
    let low := min control target
    let high := max control target
    let between := weave s(control, target)
    (∃ basisChange, options.singleFragment .h target strands = .ok basisChange ∧
      fragment.generators = basisChange.generators ++ between ++ basisChange.generators) ∧
    between.length = 2 * (high - low) + 2 ∧
    (∀ generator ∈ between, low ≤ generator.index ∧ generator.index ≤ high) ∧
    (∃ approach, strandPermutation approach low = high ∧ between =
      approach ++ [.clockwise high, .clockwise high] ++ inverseGenerators approach) ∧
    strandPermutation between = 1 := by
  intro low high between
  have carried := strandPermutation_range' low (high - low)
  rw [Nat.add_sub_of_le min_le_max] at carried
  rw [controlledNotFragment_eq] at compiled
  rcases map_eq_ok_iff.1 compiled with ⟨basisChange, changed, rfl⟩
  refine ⟨⟨basisChange, changed, rfl⟩, length_controlledTwist control target, ?_,
    ⟨_, carried, weave_eq control target⟩, strandPermutation_weave _⟩
  intro generator listed
  exact index_of_mem_controlledTwist listed

/-- The control stands above the target, three strands away, and the change of basis is one
exchange. -/
theorem controlledNotFragment_weave_downwards :
    let between : List Generator := [.clockwise 1, .clockwise 2, .clockwise 3, .clockwise 4,
      .clockwise 4, .counterClockwise 3, .counterClockwise 2, .counterClockwise 1]
    ∃ fragment, halfway.controlledNotFragment 4 1 6 = .ok fragment ∧
      (∃ letter : Letter, fragment.generators =
        [letter.generator 1] ++ between ++ [letter.generator 1]) ∧
      strandPermutation between = 1 := by
  intro between
  rcases exists_singleFragment_hadamard 1 6 with ⟨letter, error, note, changed⟩
  rcases exists_controlledNotFragment 4 1 6 with ⟨-, fragment, compiled, -⟩
  rcases controlledNotFragment_weave compiled with ⟨⟨basisChange, changed', parts⟩, -, -, -, pure⟩
  cases changed.symm.trans changed'
  exact ⟨fragment, compiled, ⟨letter, parts⟩, pure⟩

end CompileOptions

end Anyonic
