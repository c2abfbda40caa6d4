import Anyonic.Compile.Error
import Anyonic.Anyon
import Anyonic.Circuit

/-!
# Lowering to elementary instructions

The compiler has braids for single-qubit gates and the controlled not.  Every other gate is
replaced by a list of simpler ones, pass after pass, until only elementary instructions remain.
The gates that a rule puts in have a smaller compositeness than the gate they replace, so the
largest compositeness of the list bounds the number of passes.
-/

namespace Anyonic

variable {α : Type}

namespace Gate

/-- How many passes a gate takes at most to become elementary. -/
def compositeness : Gate α → Nat
  | .cz | .swap | .cp _ => 1
  | .ccx => 2
  | .mcz controls => controls + 1
  | _ => 0

end Gate

namespace Instruction

/-- How many passes an instruction takes at most to become elementary. -/
def compositeness (instruction : Instruction α) : Nat :=
  (instruction.gate?.map Gate.compositeness).getD 0

/-- Whether the compiler takes an instruction as it is. -/
def isElementary (instruction : Instruction α) : Bool :=
  instruction.compositeness == 0 && !instruction.isReset

end Instruction

/-- Which of the optional rules are in use. -/
structure LoweringRules where
  /-- Replace a controlled phase by phases and controlled nots. -/
  controlledPhase : Bool := false
deriving Repr, DecidableEq

namespace LoweringRules

/-- The rules that go with an anyon. -/
def ofAnyon : Anyon → LoweringRules
  | .ising => { controlledPhase := true }
  | .fibonacci => { controlledPhase := false }

end LoweringRules

namespace Lowering

open Instruction (single double onQubits)

/-- A controlled not. -/
def controlledNot (control target : Nat) : Instruction α := double .cx control target

/-- A controlled sign: a controlled not between two changes of basis. -/
def controlledSign (control target : Nat) : List (Instruction α) :=
  [single .h target, controlledNot control target, single .h target]

/-- An exchange of qubits: three controlled nots. -/
def exchange (first second : Nat) : List (Instruction α) :=
  [controlledNot first second, controlledNot second first, controlledNot first second]

/-- The doubly controlled not in fifteen elementary gates. -/
def toffoli (control other target : Nat) : List (Instruction α) :=
  [ single .h target,
    controlledNot other target,
    single .tdg target,
    controlledNot control target,
    single .t target,
    controlledNot other target,
    single .tdg target,
    controlledNot control target,
    single .t other,
    single .t target,
    single .h target,
    controlledNot control other,
    single .t control,
    single .tdg other,
    controlledNot control other ]

/-- A not with any number of controls. -/
def multiControlledNot : (controls : List Nat) → (target : Nat) → List (Instruction α)
  | [control], target => [controlledNot control target]
  | [control, other], target => [onQubits .ccx [control, other, target]]
  | controls, target =>
      [ single .h target,
        onQubits (.mcz controls.length) (controls ++ [target]),
        single .h target ]

variable [Scalar α]

/-- A controlled phase: half of it on each qubit, and the opposite half on their sum. -/
def controlledPhase (angle : α) (control target : Nat) : List (Instruction α) :=
  [ single (.p (angle / 2.0)) control,
    controlledNot control target,
    single (.p (-angle / 2.0)) target,
    controlledNot control target,
    single (.p (angle / 2.0)) target ]

/-- The distance from one to the next larger double. -/
def machineEpsilon : α := 2.220446049250313e-16

/--
A phase on the states in which all controls and the target are one.  The controls are given last
first, and each step peels one of them off: half of the phase is controlled by it alone, the
opposite half by its sum with the others, and the remaining half goes to the others.  The last
control makes a controlled sign if half a turn is left.
-/
def multiControlledPhase (angle : α) : (controls : List Nat) → (target : Nat) →
    List (Instruction α)
  | [], target => [single (.p angle) target]
  | [control], target =>
      if Scalar.abs (angle - Scalar.pi) < machineEpsilon then [double .cz control target]
      else controlledPhase angle control target
  | control :: rest, target =>
      controlledPhase (angle / 2.0) control target
        ++ multiControlledNot rest.reverse control
        ++ controlledPhase (-angle / 2.0) control target
        ++ multiControlledNot rest.reverse control
        ++ multiControlledPhase (angle / 2.0) rest target

/-- A sign with any number of controls. -/
def multiControlledSign : (controls : List Nat) → (target : Nat) → List (Instruction α)
  | [control], target => [double .cz control target]
  | [control, other], target =>
      [single .h target, onQubits .ccx [control, other, target], single .h target]
  | controls, target => multiControlledPhase Scalar.pi controls.reverse target

/-- One rule applied to an instruction, if there is one for it. -/
def expand? (rules : LoweringRules) (instruction : Instruction α) :
    Option (List (Instruction α)) :=
  match instruction.gate?, instruction.qubits with
  | some .cz, [control, target] => some (controlledSign control target)
  | some .swap, [first, second] => some (exchange first second)
  | some (.cp angle), [control, target] =>
      if rules.controlledPhase then some (controlledPhase angle control target) else none
  | some .ccx, [control, other, target] => some (toffoli control other target)
  | some (.mcz _), qubits =>
      qubits.getLast?.map fun target => multiControlledSign qubits.dropLast target
  | _, _ => none

/-- Apply a rule to every instruction that has one. -/
def expandAll (rules : LoweringRules) (instructions : List (Instruction α)) :
    List (Instruction α) :=
  instructions.flatMap fun instruction => (expand? rules instruction).getD [instruction]

/-- Whether a pass would change anything. -/
def canExpand (rules : LoweringRules) (instructions : List (Instruction α)) : Bool :=
  instructions.any fun instruction => (expand? rules instruction).isSome

/--
Make passes until all instructions are elementary.  It fails when a pass would change nothing, and
when a pass beyond the allowed number would be needed; `passes` have been made before.
-/
def settle (rules : LoweringRules) : (allowed passes : Nat) → List (Instruction α) →
    Except (CompileError α) (List (Instruction α))
  | allowed, passes, instructions =>
      match instructions.find? fun instruction => !instruction.isElementary with
      | none => .ok instructions
      | some stuck =>
          if canExpand rules instructions then
            match allowed with
            | 0 => .error (.loweringDiverged (passes + 1))
            | allowed + 1 => settle rules allowed (passes + 1) (expandAll rules instructions)
          else .error (.unsupportedGate stuck.name true)

/-- The largest compositeness of a list. -/
def maxCompositeness (instructions : List (Instruction α)) : Nat :=
  (instructions.map Instruction.compositeness).foldl max 0

end Lowering

/-- Lower a list of instructions to elementary ones. -/
def lower [Scalar α] (rules : LoweringRules) (instructions : List (Instruction α)) :
    Except (CompileError α) (List (Instruction α)) := do
  instructions.forM fun instruction => CompileError.ofCircuit instruction.validateArity
  if instructions.any Instruction.isReset then throw .resetRejected
  Lowering.settle rules (Lowering.maxCompositeness instructions) 0 instructions

/-- Lower a circuit, keeping its width and phase. -/
def Circuit.lower [Scalar α] (rules : LoweringRules) (circuit : Circuit α) :
    Except (CompileError α) (Circuit α) := do
  let instructions ← Anyonic.lower rules circuit.instructions
  let lowered ← CompileError.ofCircuit (Circuit.ofInstructions circuit.width instructions)
  return { lowered with totalPhase := circuit.totalPhase }

end Anyonic
