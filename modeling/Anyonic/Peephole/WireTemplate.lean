import Anyonic.Instruction

/-!
# Templates on one wire

Runs of single-qubit gates on a qubit, with nothing but instructions on other qubits between
them, that equal a shorter run.
-/

namespace Anyonic

variable {α : Type} [Scalar α]

/-- A run of gates that begins with `head`, and the shorter run that equals it. -/
structure Template (α : Type) where
  head : Gate α
  tail : List (Gate α)
  replacement : List (Gate α)

namespace Template

/-- All templates, in the order in which they are tried. -/
def all : List (Template α) :=
  [ ⟨.t, [.t, .t, .t, .t, .t, .t], [.tdg]⟩,
    ⟨.t, [.t, .t], [.s, .t]⟩,
    ⟨.s, [.s, .s], [.sdg]⟩,
    ⟨.h, [.z, .h], [.x]⟩,
    ⟨.h, [.x, .h], [.z]⟩ ]

end Template

namespace Instruction

/-- The qubit of a single-qubit gate. -/
def wire? (instruction : Instruction α) : Option Nat :=
  instruction.singleQubitGate?.bind fun _ => instruction.qubits.head?

/-- Whether the instruction is the given gate. -/
def isGate (instruction : Instruction α) (gate : Gate α) : Bool :=
  instruction.gate?.any fun own => own.approxEq gate

end Instruction

namespace Peephole

/--
Take the given gates from a wire, in order: the list without them, if they are the next gates on
the wire and nothing else touches it before the last of them.
-/
def takeFromWire (wire : Nat) :
    List (Gate α) → List (Instruction α) → Option (List (Instruction α))
  | [], rest => some rest
  | _ :: _, [] => none
  | gate :: gates, next :: rest =>
      if next.touches wire then
        if next.wire? == some wire && next.isGate gate then takeFromWire wire gates rest
        else none
      else (takeFromWire wire (gate :: gates) rest).map (next :: ·)

/-- How gates come off a wire: each is the next instruction there, and what lies between them
leaves the wire alone. -/
inductive Taken (wire : Nat) :
    List (Gate α) → List (Instruction α) → List (Instruction α) → Prop
  | done {rest} : Taken wire [] rest rest
  | take {gate gates next rest remaining} (isWire : next.wire? = some wire)
      (isGate : next.isGate gate) (taken : Taken wire gates rest remaining) :
      Taken wire (gate :: gates) (next :: rest) remaining
  | pass {gates next rest remaining} (untouched : next.touches wire = false)
      (taken : Taken wire gates rest remaining) :
      Taken wire gates (next :: rest) (next :: remaining)

theorem taken_of_takeFromWire {wire : Nat} {gates : List (Gate α)}
    {rest remaining : List (Instruction α)}
    (found : takeFromWire wire gates rest = some remaining) :
    Taken wire gates rest remaining := by
  fun_induction takeFromWire generalizing remaining with
  | case1 rest =>
      cases found
      exact .done
  | case2 => cases found
  | case3 gate gates next rest touched matched ih =>
      have matched := Bool.and_eq_true_iff.1 matched
      exact .take (beq_iff_eq.1 matched.1) matched.2 (ih found)
  | case4 => cases found
  | case5 gate gates next rest untouched ih =>
      obtain ⟨shorter, behind, rfl⟩ := Option.map_eq_some_iff.1 found
      exact .pass (Bool.eq_false_iff.2 untouched) (ih behind)

/-- The list without the gates is shorter by their number. -/
theorem Taken.length_eq {wire : Nat} {gates : List (Gate α)}
    {rest remaining : List (Instruction α)} (taken : Taken wire gates rest remaining) :
    remaining.length + gates.length = rest.length := by
  induction taken with
  | done => rfl
  | take _ _ _ ih =>
      simp only [List.length_cons]
      omega
  | pass _ _ ih =>
      simp only [List.length_cons]
      omega

/--
The first template that matches at the head of a list: the gates that take its place, and the
rest of the list without the matched gates.
-/
def matchTemplate? (instruction : Instruction α) (rest : List (Instruction α)) :
    Option (List (Instruction α) × List (Instruction α)) :=
  instruction.wire?.bind fun wire =>
    Template.all.findSome? fun template =>
      if instruction.isGate template.head then
        (takeFromWire wire template.tail rest).map fun remaining =>
          (template.replacement.map (Instruction.single · wire), remaining)
      else none

/-- What remains behind a match is no longer than what was there. -/
theorem length_of_matchTemplate? {instruction : Instruction α}
    {rest replacement remaining : List (Instruction α)}
    (found : matchTemplate? instruction rest = some (replacement, remaining)) :
    remaining.length ≤ rest.length := by
  obtain ⟨wire, _, matched⟩ := Option.bind_eq_some_iff.1 found
  obtain ⟨template, _, applied⟩ := List.exists_of_findSome?_eq_some matched
  split at applied
  · obtain ⟨shorter, taken, same⟩ := Option.map_eq_some_iff.1 applied
    cases same
    have := (taken_of_takeFromWire taken).length_eq
    omega
  · cases applied

/-- Replace matched templates, from left to right. -/
def applyTemplates : List (Instruction α) → List (Instruction α)
  | [] => []
  | instruction :: rest =>
      match _ : matchTemplate? instruction rest with
      | some (replacement, remaining) => replacement ++ applyTemplates remaining
      | none => instruction :: applyTemplates rest
termination_by instructions => instructions.length
decreasing_by
  · have := length_of_matchTemplate? ‹_›
    simp only [List.length_cons]
    omega
  · simp

/-- Replace templates until the list no longer becomes shorter. -/
def applyTemplatesUntilStable (instructions : List (Instruction α)) : List (Instruction α) :=
  let next := applyTemplates instructions
  if next.length < instructions.length then applyTemplatesUntilStable next else next
termination_by instructions.length

end Peephole

end Anyonic
