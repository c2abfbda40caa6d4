import Anyonic.Gate

/-!
# Gates with an angle

The five gates that turn by an angle, as one family.  Gates that are equal up to rounding are
equal, or they are members of the family of the same kind with angles that are equal up to
rounding.
-/

namespace Anyonic

/-- The kinds of gates with an angle. -/
inductive Turn where
  | rx
  | ry
  | rz
  | p
  | cp
deriving DecidableEq

namespace Turn

variable {α : Type}

/-- The gate of a kind with the given angle. -/
def gate : Turn → α → Gate α
  | .rx => .rx
  | .ry => .ry
  | .rz => .rz
  | .p => .p
  | .cp => .cp

/-- The angle of a gate of the given kind. -/
def angle? : Turn → Gate α → Option α
  | .rx, .rx angle => some angle
  | .ry, .ry angle => some angle
  | .rz, .rz angle => some angle
  | .p, .p angle => some angle
  | .cp, .cp angle => some angle
  | _, _ => none

@[simp]
theorem angle?_gate (turn : Turn) (angle : α) : turn.angle? (turn.gate angle) = some angle := by
  cases turn <;> rfl

theorem angle?_eq_some_iff {turn : Turn} {gate : Gate α} {angle : α} :
    turn.angle? gate = some angle ↔ gate = turn.gate angle := by
  constructor
  · intro found
    cases turn <;> cases gate <;> simp_all [angle?, Turn.gate]
  · rintro rfl
    exact angle?_gate turn angle

theorem angle?_gate_other {turn other : Turn} (different : turn ≠ other) (angle : α) :
    turn.angle? (other.gate angle) = none := by
  cases turn <;> cases other <;> first | rfl | exact absurd rfl different

@[simp]
theorem gate_angle? (turn : Turn) (angle : α) : (turn.gate angle).angle? = some angle := by
  cases turn <;> rfl

variable [Scalar α]

@[simp]
theorem inverse_gate (turn : Turn) (angle : α) :
    (turn.gate angle).inverse = turn.gate (-angle) := by
  cases turn <;> rfl

/-- Only turns have turns as their inverses. -/
theorem exists_of_inverse_eq {turn : Turn} {gate : Gate α} {opposite : α}
    (inverse_eq : gate.inverse = turn.gate opposite) :
    ∃ angle, gate = turn.gate angle ∧ opposite = -angle := by
  cases turn <;> cases gate <;> cases inverse_eq <;> exact ⟨_, rfl, rfl⟩

end Turn

namespace Gate

variable {α : Type} [Scalar α]

theorem angle?_inverse (gate : Gate α) : gate.inverse.angle? = gate.angle?.map (- ·) := by
  cases gate <;> rfl

/-- A gate without an angle equals whatever passes for it. -/
theorem eq_of_beq_of_free {first second : Gate α} (same : (first == second) = true)
    (free : first.angle? = none) : first = second := by
  cases first with
  | mcz controls =>
      cases second with
      | mcz controls' => exact congrArg Gate.mcz (beq_iff_eq.1 same)
      | _ => exact absurd same Bool.false_ne_true
  | _ =>
      cases free <;> cases second <;>
        first | rfl | exact absurd same Bool.false_ne_true

/-- Gates that are equal up to rounding are equal or differ in their angles only. -/
theorem approxEq_cases {first second : Gate α} (same : first.approxEq second = true) :
    (first = second ∧ first.angle? = none) ∨
      ∃ (turn : Turn) (angle angle' : α), first = turn.gate angle ∧ second = turn.gate angle' ∧
        sameAngle angle angle' = true := by
  by_cases free : first.angle? = none
  · left
    refine ⟨?_, free⟩
    apply eq_of_beq_of_free _ free
    cases first <;> cases free <;> exact same
  · right
    cases first with
    | rx angle =>
        cases second with
        | rx angle' => exact ⟨.rx, angle, angle', rfl, rfl, same⟩
        | _ => exact absurd same Bool.false_ne_true
    | ry angle =>
        cases second with
        | ry angle' => exact ⟨.ry, angle, angle', rfl, rfl, same⟩
        | _ => exact absurd same Bool.false_ne_true
    | rz angle =>
        cases second with
        | rz angle' => exact ⟨.rz, angle, angle', rfl, rfl, same⟩
        | _ => exact absurd same Bool.false_ne_true
    | p angle =>
        cases second with
        | p angle' => exact ⟨.p, angle, angle', rfl, rfl, same⟩
        | _ => exact absurd same Bool.false_ne_true
    | cp angle =>
        cases second with
        | cp angle' => exact ⟨.cp, angle, angle', rfl, rfl, same⟩
        | _ => exact absurd same Bool.false_ne_true
    | _ => exact absurd rfl free

end Gate

end Anyonic
