import Anyonic.Circuit
import Anyonic.Compile.Decomposition
import Anyonic.Lowering
import Anyonic.PhaseLattice
import Anyonic.Search.Nearest

/-!
# From circuits to braids

A circuit is lowered to elementary instructions, and each of them gets a braid: an exact one where
the anyon has it, otherwise the word that a search finds.
-/

namespace Anyonic

/-- A piece of a braid, with the error it makes and remarks on how it was found. -/
structure Fragment (α : Type) where
  generators : List Generator
  strands : Nat
  error : α
  notes : List String

namespace Fragment

variable {α : Type} [Scalar α]

/-- Nothing on the given number of strands. -/
def empty (strands : Nat) : Fragment α := ⟨[], strands, 0.0, []⟩

/-- One fragment after another. -/
def append (first second : Fragment α) : Fragment α :=
  ⟨first.generators ++ second.generators, max first.strands second.strands,
    first.error + second.error, first.notes ++ second.notes⟩

end Fragment

/-- The number of strands for the given number of qubits: one more in 32 bits, and at least two. -/
def strandsFor (width : Nat) : Nat := max (wrappingSucc width) 2

/--
The strands of the control and the target are brought together, exchanged twice, and brought back
the way they came.
-/
def controlledTwist (control target : Nat) : List Generator :=
  let low := min control target
  let high := max control target
  let between := List.range' low (high - low)
  between.map Generator.clockwise ++ [.clockwise high, .clockwise high] ++
    between.reverse.map Generator.counterClockwise

namespace CompileOptions

variable {α : Type} [Scalar α] [Numeral α]

/-- The braid that a search finds for a single-qubit gate. -/
def approximateFragment (options : CompileOptions α) (gate : Gate α) (qubit strands : Nat) :
    Except (CompileError α) (Fragment α) := do
  let found ← Search.approximateGate options.anyon gate options.tolerance options.search
  if options.tolerance < found.error then
    throw (.computation gate.name found.error options.tolerance)
  let strands := max strands (qubit + 3)
  let word ← CompileError.ofCircuit (found.braid qubit strands)
  let note := s!"{gate.text} on q{qubit} approximated by {found.letters.length} braids, "
    ++ s!"error {Numeral.scientific 3 found.error}"
  return ⟨word.generators, strands, found.error, [note]⟩

/-- The fragment of an exact braid, with a remark if it misses the gate's angle. -/
def exactFragment (gate : Gate α) (qubit strands : Nat) (found : ExactBraid α) : Fragment α :=
  let note := s!"{gate.text} on q{qubit} rounded to {found.word.length} braids, "
    ++ s!"residual {Numeral.scientific 3 found.error}"
  ⟨found.word.generators, strands, found.error, if (0.0 : α) < found.error then [note] else []⟩

/-- The braid of a single-qubit gate: an exact one if there is one. -/
def singleFragment (options : CompileOptions α) (gate : Gate α) (qubit strands : Nat) :
    Except (CompileError α) (Fragment α) :=
  match PhaseLattice.ofAnyon? options.anyon with
  | none => options.approximateFragment gate qubit strands
  | some lattice =>
      match lattice.braid gate qubit strands options.tolerance with
      | .ok found => .ok (exactFragment gate qubit strands found)
      | .error (.exactMappingUnavailable _) => options.approximateFragment gate qubit strands
      | .error error => .error error

/-- The braid of a controlled not: a twist between two changes of the target's basis. -/
def controlledNotFragment (options : CompileOptions α) (control target strands : Nat) :
    Except (CompileError α) (Fragment α) := do
  let basisChange ← options.singleFragment .h target strands
  let twist : Fragment α := ⟨controlledTwist control target, strands, 0.0, []⟩
  return (basisChange.append twist).append basisChange

/-- The braid of an elementary instruction. -/
def elementaryFragment (options : CompileOptions α) (instruction : Instruction α)
    (strands : Nat) : Except (CompileError α) (Fragment α) := do
  CompileError.ofCircuit instruction.validateArity
  match instruction.operation, instruction.qubits with
  | .measure, _ | .barrier, _ => return .empty strands
  | .reset, _ => throw .resetRejected
  | .apply .cx, [control, target] => options.controlledNotFragment control target strands
  | .apply (.cp _), _ =>
      throw (.logic "cp" "Fibonacci braids have no controlled-phase rule")
  | .apply gate, [qubit] => options.singleFragment gate qubit strands
  | .apply gate, _ => throw (.unsupportedGate gate.name false)

/-- Whether the braid of a gate is put together from those of simpler gates. -/
def lowersFirst (options : CompileOptions α) : Operation α → Bool
  | .apply .cz | .apply .swap | .apply .ccx | .apply (.mcz _) => true
  | .apply (.cp _) => (LoweringRules.ofAnyon options.anyon).controlledPhase
  | _ => false

/-- The braid of an instruction. -/
def fragment (options : CompileOptions α) (instruction : Instruction α) (strands : Nat) :
    Except (CompileError α) (Fragment α) :=
  if options.lowersFirst instruction.operation then do
    let pieces ← lower (LoweringRules.ofAnyon options.anyon) [instruction]
    pieces.foldlM
      (fun done piece => return done.append (← options.elementaryFragment piece strands))
      (Fragment.empty strands)
  else options.elementaryFragment instruction strands

/-- Compile one instruction of a circuit of the given width. -/
def compileInstruction (options : CompileOptions α) (instruction : Instruction α)
    (width : Nat) : Except (CompileError α) (Decomposition α) := do
  options.validate
  CompileError.ofCircuit (instruction.validate width)
  let fragment ← options.fragment instruction (strandsFor width)
  let braid ← CompileError.ofCircuit
    (BraidWord.ofGenerators fragment.strands fragment.generators)
  return ⟨instruction.operation.text, instruction.qubits, braid, fragment.error, fragment.notes⟩

/-- Compile a circuit. -/
def compile (options : CompileOptions α) (circuit : Circuit α) :
    Except (CompileError α) (Compilation α) := do
  options.validate
  let elementary ← lower (LoweringRules.ofAnyon options.anyon) circuit.instructions
  let decompositions ← elementary.mapM fun instruction =>
    options.compileInstruction instruction circuit.width
  return ⟨options.anyon, circuit.length, decompositions⟩

end CompileOptions

end Anyonic
