import Anyonic.Circuit.Error

/-!
# Braids

Words in the generators of the braid group, on a fixed number of strands.
-/

namespace Anyonic

/-- The direction of an exchange. -/
inductive Orientation where
  | clockwise
  | counterClockwise
deriving Repr, DecidableEq

namespace Orientation

/-- The opposite direction. -/
def reversed : Orientation → Orientation
  | .clockwise => .counterClockwise
  | .counterClockwise => .clockwise

end Orientation

/-- The exchange of the strands `index` and `index + 1`. -/
structure Generator where
  index : Nat
  orientation : Orientation
deriving Repr, DecidableEq

namespace Generator

/-- The clockwise exchange at `index`. -/
def clockwise (index : Nat) : Generator := ⟨index, .clockwise⟩

/-- The counter-clockwise exchange at `index`. -/
def counterClockwise (index : Nat) : Generator := ⟨index, .counterClockwise⟩

/-- The exchange that undoes this one. -/
def inverse (generator : Generator) : Generator :=
  ⟨generator.index, generator.orientation.reversed⟩

/-- A generator as it is written; strands are counted from one. -/
def text (generator : Generator) : String :=
  match generator.orientation with
  | .clockwise => s!"σ{generator.index + 1}"
  | .counterClockwise => s!"σ{generator.index + 1}⁻¹"

end Generator

/-- The generators that undo a list of generators. -/
def inverseGenerators (generators : List Generator) : List Generator :=
  generators.reverse.map Generator.inverse

/-- A braid: exchanges in the order in which they are performed. -/
structure BraidWord where
  strands : Nat
  generators : List Generator
deriving Repr, DecidableEq

namespace BraidWord

/-- The braid of a list of generators, which have to fit on the strands. -/
def ofGenerators (strands : Nat) (generators : List Generator) :
    Except CircuitError BraidWord :=
  if strands < 2 then .error (.tooFewStrands strands)
  else
    match generators.find? fun generator => strands - 2 < generator.index with
    | some generator => .error (.generatorOutOfRange generator.index strands)
    | none => .ok ⟨strands, generators⟩

/-- The number of generators. -/
def length (word : BraidWord) : Nat := word.generators.length

/-- The number of qubits that the strands encode, one fewer than there are strands. -/
def width (word : BraidWord) : Nat := word.strands - 1

/-- The braid that undoes this one. -/
def inverse (word : BraidWord) : BraidWord :=
  ⟨word.strands, inverseGenerators word.generators⟩

/-- A braid as it is written. -/
def text (word : BraidWord) : String :=
  s!"B{word.strands}[" ++ " ".intercalate (word.generators.map Generator.text) ++ "]"

/-- Several braids in a row, on as many strands as the widest of them has. -/
def concat (words : List BraidWord) : Except CircuitError BraidWord :=
  ofGenerators ((words.map BraidWord.strands).foldl max 0) (words.flatMap BraidWord.generators)

end BraidWord

end Anyonic
