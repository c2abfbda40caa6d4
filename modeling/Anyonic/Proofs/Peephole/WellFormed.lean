import Anyonic.Proofs.Gate.Turn
import Anyonic.Proofs.Peephole.Trace
import Anyonic.Proofs.WellFormed

/-!
# Shape and well-formedness of rewriting steps

What a merge and a template match say about the instructions involved, and that rewriting steps
keep a list of instructions well formed.
-/

namespace Anyonic

variable {α : Type}

namespace Instruction

theorem exists_of_singleQubitGate? {instruction : Instruction α} {gate : Gate α}
    (found : instruction.singleQubitGate? = some gate) :
    instruction = onQubits gate instruction.qubits ∧ gate.arity = 1 := by
  rcases instruction with ⟨operation, qubits⟩
  cases operation with
  | apply own =>
      simp only [singleQubitGate?, gate?, Option.filter_eq_some_iff, Option.some.injEq,
        beq_iff_eq] at found
      rcases found with ⟨rfl, single⟩
      exact ⟨rfl, single⟩
  | _ => simp [singleQubitGate?, gate?] at found

theorem exists_of_wire? {instruction : Instruction α} {wire : ℕ}
    (found : instruction.wire? = some wire) :
    ∃ gate, instruction = onQubits gate instruction.qubits ∧ gate.arity = 1 ∧
      instruction.qubits.head? = some wire := by
  rcases Option.bind_eq_some_iff.1 found with ⟨gate, isGate, head⟩
  rcases exists_of_singleQubitGate? isGate with ⟨instruction_eq, single⟩
  exact ⟨gate, instruction_eq, single, head⟩

variable [Scalar α]

theorem eq_of_isGate {instruction : Instruction α} {gate : Gate α}
    (passes : instruction.isGate gate) (free : gate.angle? = none) :
    instruction = onQubits gate instruction.qubits := by
  rcases instruction with ⟨operation, qubits⟩
  cases operation with
  | apply own =>
      rcases Gate.approxEq_cases passes with ⟨rfl, -⟩ | ⟨turn, -, angle, -, rfl, -⟩
      · rfl
      · simp at free
  | _ => cases passes

theorem exists_of_undoneBy {first second : Instruction α} (undone : first.undoneBy second) :
    ∃ gate other qubits qubits', first = onQubits gate qubits ∧ second = onQubits other qubits' ∧
      gate.inverse.approxEq other ∧ gate.sameOperands qubits qubits' := by
  rcases first with ⟨operation, qubits⟩
  rcases second with ⟨operation', qubits'⟩
  cases operation with
  | apply gate =>
      cases operation' with
      | apply other =>
          refine ⟨gate, other, qubits, qubits', rfl, rfl, ?_⟩
          simpa [undoneBy, gate?] using undone
      | _ => simp [undoneBy, gate?] at undone
  | _ => simp [undoneBy, gate?] at undone

end Instruction

namespace Template

/-- No template has gates with an angle, and all its gates are on single qubits. -/
theorem free_of_mem_all {template : Template α} (listed : template ∈ all) {gate : Gate α}
    (used : gate ∈ template.head :: template.tail ++ template.replacement) :
    gate.angle? = none ∧ gate.arity = 1 ∧ gate ≠ .mcz 0 := by
  have checked : ∀ template ∈ (all : List (Template α)),
      ∀ gate ∈ template.head :: template.tail ++ template.replacement,
        gate.angle? = none ∧ gate.arity = 1 ∧ gate ≠ .mcz 0 := by
    simp [all, or_imp, forall_and, Gate.angle?, Gate.arity]
  exact checked template listed gate used

end Template

variable [Scalar α]

namespace Product

/-- Only single-qubit gates on the same operands have a product. -/
theorem exists_of_ofInstructions? {first second : Instruction α} {product : Product α}
    (found : ofInstructions? first second = some product) :
    ∃ gate other qubits, first = .onQubits gate qubits ∧ second = .onQubits other qubits ∧
      gate.arity = 1 ∧ other.arity = 1 ∧ ofGates? gate other = some product := by
  unfold ofInstructions? at found
  split at found
  · rename_i operands
    split at found
    · rename_i gate other isGate isOther
      rcases Instruction.exists_of_singleQubitGate? isGate with ⟨first_eq, single⟩
      rcases Instruction.exists_of_singleQubitGate? isOther with ⟨second_eq, single'⟩
      rw [eq_of_beq operands] at first_eq
      exact ⟨gate, other, second.qubits, first_eq, second_eq, single, single', found⟩
    · cases found
  · cases found

/-- The gates that have a product: named phases, or turns of the same kind. -/
theorem ofGates?_cases {first second : Gate α} {product : Product α}
    (found : ofGates? first second = some product) :
    (∃ turn : Turn, turn ≠ .cp ∧ ∃ angle angle', first = turn.gate angle ∧
        second = turn.gate angle' ∧ product = rotation turn.gate (angle + angle')) ∨
      (first.angle? = none ∧ second = first ∧
        (first = .t ∧ product = .one .s ∨ first = .tdg ∧ product = .one .sdg ∨
          first = .s ∧ product = .one .z ∨ first = .sdg ∧ product = .one .z ∨
          first = .z ∧ product = .nothing)) := by
  unfold ofGates? at found
  split at found
  · exact .inr ⟨rfl, rfl, by simpa using found.symm⟩
  · exact .inr ⟨rfl, rfl, by simpa using found.symm⟩
  · exact .inr ⟨rfl, rfl, by simpa using found.symm⟩
  · exact .inr ⟨rfl, rfl, by simpa using found.symm⟩
  · exact .inr ⟨rfl, rfl, by simpa using found.symm⟩
  · rename_i angle angle'
    exact .inl ⟨.rx, by simp, angle, angle', rfl, rfl, (Option.some.inj found).symm⟩
  · rename_i angle angle'
    exact .inl ⟨.ry, by simp, angle, angle', rfl, rfl, (Option.some.inj found).symm⟩
  · rename_i angle angle'
    exact .inl ⟨.rz, by simp, angle, angle', rfl, rfl, (Option.some.inj found).symm⟩
  · rename_i angle angle'
    exact .inl ⟨.p, by simp, angle, angle', rfl, rfl, (Option.some.inj found).symm⟩
  · cases found

theorem small_of_rotation {gate : α → Gate α} {angle : α}
    (dropped : rotation gate angle = nothing) :
    Scalar.abs (Scalar.normalizeAngle angle) < Gate.angleTolerance := by
  unfold rotation at dropped
  split at dropped
  · assumption
  · cases dropped

theorem arity_of_ofGates? {first second gate : Gate α}
    (found : ofGates? first second = some (.one gate)) : gate.arity = 1 ∧ gate ≠ .mcz 0 := by
  rcases ofGates?_cases found with ⟨turn, single, angle, angle', -, -, product_eq⟩ | ⟨-, -, cases⟩
  · unfold rotation at product_eq
    split at product_eq
    · cases product_eq
    · cases product_eq
      cases turn <;> first | exact ⟨rfl, by simp [Turn.gate]⟩ | exact absurd rfl single
  · simp only [one.injEq, reduceCtorEq, and_false, or_false] at cases
    obtain ⟨-, rfl⟩ | ⟨-, rfl⟩ | ⟨-, rfl⟩ | ⟨-, rfl⟩ := cases <;> exact ⟨rfl, by simp⟩

end Product

namespace Peephole

theorem Taken.sublist {wire : ℕ} {gates : List (Gate α)} {rest remaining : List (Instruction α)}
    (taken : Taken wire gates rest remaining) : remaining.Sublist rest := by
  induction taken with
  | done => exact .refl _
  | take _ _ _ ih => exact ih.cons _
  | pass _ _ ih => exact ih.cons_cons _

/-- What a template match finds. -/
theorem exists_of_matchTemplate? {instruction : Instruction α}
    {rest replacement remaining : List (Instruction α)}
    (found : matchTemplate? instruction rest = some (replacement, remaining)) :
    ∃ wire, ∃ template ∈ Template.all, instruction.wire? = some wire ∧
      instruction = .onQubits template.head instruction.qubits ∧
      Taken wire template.tail rest remaining ∧
      replacement = template.replacement.map (Instruction.single · wire) := by
  rcases Option.bind_eq_some_iff.1 found with ⟨wire, isWire, matched⟩
  rcases List.exists_of_findSome?_eq_some matched with ⟨template, listed, applied⟩
  split at applied
  · rename_i passes
    rcases Option.map_eq_some_iff.1 applied with ⟨remaining', taken, same⟩
    cases same
    have free := (Template.free_of_mem_all listed (by simp : template.head ∈ _)).1
    exact ⟨wire, template, listed, isWire, Instruction.eq_of_isGate passes free,
      taken_of_takeFromWire taken, rfl⟩
  · cases applied

/-- Where the instructions after a step come from. -/
theorem StepBy.mem_cases {granted : Comparison α → Prop}
    {source target : List (Instruction α)} (step : StepBy granted source target)
    {instruction : Instruction α} (listed : instruction ∈ target) :
    instruction ∈ source ∨
      (∃ gate other merged qubits, .onQubits gate qubits ∈ source ∧
        .onQubits other qubits ∈ source ∧ other.arity = 1 ∧
        Product.ofGates? gate other = some (.one merged) ∧
        instruction = .onQubits merged qubits) ∨
      ∃ template ∈ Template.all, ∃ gate ∈ template.replacement, ∃ wire, ∃ origin ∈ source,
        origin.wire? = some wire ∧ instruction = .single gate wire := by
  cases step with
  | drop identity =>
      left
      simp only [List.mem_append, List.mem_cons] at listed ⊢
      tauto
  | cancel undone commute =>
      left
      simp only [List.mem_append, List.mem_cons] at listed ⊢
      tauto
  | @merge before after first second product found =>
      obtain ⟨gate, other, qubits, rfl, rfl, -, single, product_eq⟩ :=
        Product.exists_of_ofInstructions? found
      simp only [List.mem_append] at listed
      rcases listed with listed | listed | listed
      · exact .inl (by simp [listed])
      · cases product with
        | nothing => cases listed
        | one merged =>
            obtain rfl : instruction = .onQubits merged qubits := by
              simpa [Product.instructions] using listed
            exact .inr (.inl ⟨gate, other, merged, qubits, by simp, by simp, single, product_eq,
              rfl⟩)
      · exact .inl (by simp [listed])
  | @template before rest replacement remaining origin found =>
      rcases exists_of_matchTemplate? found with ⟨wire, template, known, isWire, -, taken, rfl⟩
      simp only [List.mem_append, List.mem_map] at listed
      rcases listed with listed | ⟨gate, used, rfl⟩ | listed
      · exact .inl (by simp [listed])
      · exact .inr (.inr ⟨template, known, gate, used, wire, origin, by simp, isWire, rfl⟩)
      · exact .inl (by simp [taken.sublist.mem listed])

theorem StepBy.wellFormed {width : ℕ} {granted : Comparison α → Prop}
    {source target : List (Instruction α)}
    (step : StepBy granted source target)
    (wellFormed : ∀ instruction ∈ source, instruction.WellFormed width) :
    ∀ instruction ∈ target, instruction.WellFormed width := by
  intro instruction listed
  obtain kept | ⟨gate, other, merged, qubits, -, present, single, product_eq, rfl⟩ |
    ⟨template, known, gate, used, wire, origin, present, isWire, rfl⟩ := step.mem_cases listed
  · exact wellFormed instruction kept
  · obtain ⟨-, length, inRange, distinct⟩ :=
      Instruction.wellFormed_onQubits_iff.1 (wellFormed _ present)
    rcases Product.arity_of_ofGates? product_eq with ⟨arity, controlled⟩
    exact Instruction.wellFormed_onQubits_iff.2
      ⟨controlled, by rw [length, single, arity], inRange, distinct⟩
  · rcases Instruction.exists_of_wire? isWire with ⟨-, -, -, head⟩
    have inRange := (wellFormed origin present).inRange wire (List.mem_of_mem_head? head)
    obtain ⟨-, arity, controlled⟩ := Template.free_of_mem_all known
      (by simp [used] : gate ∈ template.head :: template.tail ++ template.replacement)
    exact Instruction.wellFormed_onQubits_iff.2
      ⟨controlled, by simp [arity], by simpa using inRange, by simp⟩

theorem ReachesBy.wellFormed {width : ℕ} {granted : Comparison α → Prop}
    {source target : List (Instruction α)}
    (reaches : ReachesBy granted source target)
    (wellFormed : ∀ instruction ∈ source, instruction.WellFormed width) :
    ∀ instruction ∈ target, instruction.WellFormed width := by
  induction reaches with
  | refl => exact wellFormed
  | tail _ step ih => exact step.wellFormed ih

end Peephole

end Anyonic
