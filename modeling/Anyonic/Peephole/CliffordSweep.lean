import Anyonic.Peephole.Commutation

/-!
# Clifford gates to the front

Clifford gates are moved in front of commuting gates outside the Clifford group, one place a
sweep, until no sweep moves anything.
-/

namespace Anyonic

variable {α : Type} [Scalar α]

namespace Instruction

/-- Whether `first` is a gate outside the Clifford group and `second` a Clifford gate passing it. -/
def yieldsTo (first second : Instruction α) : Bool :=
  (first.gate?.any fun gate => !gate.isClifford) && second.gate?.any Gate.isClifford &&
    first.commutes second

end Instruction

namespace Peephole

/--
Exchange disjoint neighbours where the second may move to the front, from left to right, and say
whether anything moved.
-/
def sweepOnce : List (Instruction α) → List (Instruction α) × Bool
  | first :: second :: rest =>
      if first.yieldsTo second then (second :: first :: (sweepOnce rest).1, true)
      else
        let later := sweepOnce (second :: rest)
        (first :: later.1, later.2)
  | instructions => (instructions, false)

/-- One sweep. -/
def sweepCliffords (instructions : List (Instruction α)) : List (Instruction α) :=
  (sweepOnce instructions).1

/-- Sweep until nothing moves, at most `sweeps` times. -/
def sweepUpTo : (sweeps : Nat) → List (Instruction α) → List (Instruction α)
  | 0, instructions => instructions
  | sweeps + 1, instructions =>
      match sweepOnce instructions with
      | (swept, true) => sweepUpTo sweeps swept
      | (swept, false) => swept

/--
Sweep until nothing moves.  Every exchange removes one pair of gates in the wrong order, so the
square of the length bounds the number of sweeps that move something.
-/
def cliffordsFirst (instructions : List (Instruction α)) : List (Instruction α) :=
  sweepUpTo (instructions.length * instructions.length + 1) instructions

end Peephole

end Anyonic
