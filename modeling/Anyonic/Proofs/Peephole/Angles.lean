import Anyonic.Proofs.Exact.Scalar
import Anyonic.Proofs.Peephole.WellFormed

/-!
# Telling angles apart

The optimiser compares angles up to rounding: it takes a turn for the inverse of another if their
angles nearly add up to zero, and it drops a turn whose angle is nearly a multiple of a full turn.
Its comparisons on a list are exact if none of them succeeds by accident.

Merging adds up the angles of turns of the same kind on the same operands, so all angles that are
ever compared are sums over disjoint groups of the angles of the list, in their order.  This gives
a criterion for exact comparisons that speaks of the angles of the list alone.
-/

namespace Anyonic

/-- The angle of the instruction's gate. -/
def Instruction.angle? {α : Type} (instruction : Instruction α) : Option α :=
  instruction.gate?.bind Gate.angle?

/--
A comparison that does not take angles for others: an instruction that passes for the inverse of
another has the opposite angle, and turns that are dropped when they are merged are full turns.
-/
def Peephole.Comparison.Exact : Comparison ℝ → Prop
  | ⟨.undoes, first, second⟩ => first.undoneBy second →
      ∀ angle ∈ first.angle?, ∀ angle' ∈ second.angle?, -angle = angle'
  | ⟨.fullTurn, first, second⟩ => Product.ofInstructions? first second = some .nothing →
      ∀ angle ∈ first.angle?, ∀ angle' ∈ second.angle?,
        ∃ count : ℤ, angle + angle' = count * Scalar.turn

/-- None of the comparisons that the optimiser makes on a list at a level takes an angle for
another. -/
def ComparesExactly (instructions : List (Instruction ℝ)) (level : ℕ) : Prop :=
  ∀ comparison ∈ comparisons instructions level, comparison.Exact

/-- The angle of a turn of the given kind on the given operands, in any order. -/
def Instruction.turnAngle? {α : Type} (turn : Turn) (qubits : List ℕ)
    (instruction : Instruction α) : Option α :=
  if instruction.qubits.Perm qubits then instruction.gate?.bind turn.angle? else none

/-- The angles of the turns of one kind on the same operands, in order. -/
def anglesOf {α : Type} (turn : Turn) (qubits : List ℕ) (instructions : List (Instruction α)) :
    List α :=
  instructions.filterMap (Instruction.turnAngle? turn qubits)

/-- Angles whose sums are only taken for opposite, or for full turns, if they are. -/
structure Discernible (angles : List ℝ) : Prop where
  opposite : ∀ first second : List ℝ, (first ++ second).Sublist angles →
    Gate.sameAngle (-first.sum) second.sum → -first.sum = second.sum
  full : ∀ group : List ℝ, group.Sublist angles →
    Scalar.abs (Scalar.normalizeAngle group.sum) < Gate.angleTolerance →
      ∃ count : ℤ, group.sum = count * (2 * Real.pi)

/-- The angles of each kind of turn on the same operands are discernible. -/
def AnglesDiscernible (instructions : List (Instruction ℝ)) : Prop :=
  ∀ turn qubits, Discernible (anglesOf turn qubits instructions)

namespace Discernible

theorem nil : Discernible [] where
  opposite first second sublist _ := by
    rcases List.append_eq_nil_iff.1 (List.sublist_nil.1 sublist) with ⟨rfl, rfl⟩
    simp
  full group sublist _ := by
    rcases List.sublist_nil.1 sublist with rfl
    exact ⟨0, by simp⟩

/-- Sums over groups of discernible angles are discernible. -/
theorem sums {angles : List ℝ} (discernible : Discernible angles) {groups : List (List ℝ)}
    (sublist : groups.flatten.Sublist angles) : Discernible (groups.map List.sum) where
  opposite first second sublist' := by
    rcases List.sublist_map_iff.1 sublist' with ⟨kept, keptSublist, split⟩
    rcases List.map_eq_append_iff.1 split.symm with ⟨kept', kept'', rfl, rfl, rfl⟩
    have flat : (kept'.flatten ++ kept''.flatten).Sublist angles := by
      rw [← List.flatten_append]
      exact keptSublist.flatten.trans sublist
    rw [← List.sum_flatten, ← List.sum_flatten]
    exact discernible.opposite _ _ flat
  full group sublist' := by
    rcases List.sublist_map_iff.1 sublist' with ⟨kept, keptSublist, rfl⟩
    rw [← List.sum_flatten]
    exact discernible.full _ (keptSublist.flatten.trans sublist)

theorem sublist {angles angles' : List ℝ} (discernible : Discernible angles)
    (sublist : angles'.Sublist angles) : Discernible angles' where
  opposite first second sublist' := discernible.opposite first second (sublist'.trans sublist)
  full group sublist' := discernible.full group (sublist'.trans sublist)

theorem merge {before after : List ℝ} {angle angle' : ℝ}
    (discernible : Discernible (before ++ angle :: angle' :: after)) :
    Discernible (before ++ (angle + angle') :: after) := by
  have flat : (before.map (fun angle => [angle]) ++
      [angle, angle'] :: after.map fun angle => [angle]).flatten.Sublist
        (before ++ angle :: angle' :: after) := by
    simp [← List.flatMap_def]
  simpa [Function.comp_def] using discernible.sums flat

/-- Angles on a grid that is wider than the rounding are discernible. -/
theorem of_grid {step : ℝ} {parts : ℤ} (wide : Gate.angleTolerance ≤ step)
    (closes : 2 * Real.pi = parts * step) {angles : List ℝ}
    (onGrid : ∀ angle ∈ angles, ∃ count : ℤ, angle = count * step) : Discernible angles := by
  have positive : 0 < step := lt_of_lt_of_le (by norm_num [Gate.angleTolerance]) wide
  have sum_onGrid (group : List ℝ) (sublist : group.Sublist angles) :
      ∃ count : ℤ, group.sum = count * step := by
    induction group with
    | nil => exact ⟨0, by simp⟩
    | cons angle group ih =>
        rcases onGrid angle (sublist.mem List.mem_cons_self) with ⟨count, angle_eq⟩
        rcases ih ((List.sublist_cons_self _ _).trans sublist) with ⟨count', sum_eq⟩
        exact ⟨count + count', by rw [List.sum_cons, angle_eq, sum_eq]; push_cast; ring⟩
  have zero_of_small {count : ℤ} (small : |(count : ℝ) * step| < Gate.angleTolerance) :
      count = 0 := by
    by_contra nonzero
    have large : (1 : ℝ) ≤ |(count : ℝ)| := by exact_mod_cast Int.one_le_abs nonzero
    rw [abs_mul, abs_of_pos positive] at small
    nlinarith
  constructor
  · intro first second sublist passes
    rcases sum_onGrid first ((List.sublist_append_left _ _).trans sublist) with ⟨count, first_eq⟩
    obtain ⟨count', second_eq⟩ := sum_onGrid second ((List.sublist_append_right _ _).trans sublist)
    rw [Gate.sameAngle_iff, first_eq, second_eq] at passes
    have zero : -count - count' = 0 := by
      apply zero_of_small
      calc |((-count - count' : ℤ) : ℝ) * step|
          = |-(count * step) - count' * step| := by push_cast; ring_nf
        _ < Gate.angleTolerance := passes
    rw [first_eq, second_eq, (by omega : count' = -count)]
    push_cast
    ring
  · intro group sublist passes
    rcases sum_onGrid group sublist with ⟨count, sum_eq⟩
    rcases Scalar.exists_normalizeAngle_eq group.sum with ⟨turns, normalized⟩
    have zero : count - turns * parts = 0 := by
      apply zero_of_small
      calc |((count - turns * parts : ℤ) : ℝ) * step|
          = |group.sum - turns * (2 * Real.pi)| := by
            rw [sum_eq, closes]
            push_cast
            ring_nf
        _ < Gate.angleTolerance := by rwa [normalized] at passes
    refine ⟨turns, ?_⟩
    rw [sum_eq, closes, (by omega : count = turns * parts)]
    push_cast
    ring

end Discernible

theorem Gate.perm_of_sameOperands {α : Type} {gate : Gate α} {first second : List ℕ}
    (distinct : first.Nodup) (same : gate.sameOperands first second) : first.Perm second := by
  simp only [sameOperands, Bool.and_eq_true, beq_iff_eq] at same
  rcases same with ⟨length, same⟩
  have contained (all : first.all second.contains) : first.Perm second := by
    have subset : first ⊆ second := by
      intro qubit listed
      simpa using List.all_eq_true.1 all qubit listed
    exact (distinct.subperm subset).perm_of_length_le length.ge
  split at same
  · exact contained same
  · exact contained same
  · exact contained same
  · exact contained same
  · simp only [Bool.and_eq_true, Bool.or_eq_true, beq_iff_eq] at same
    rcases same with ⟨rfl, ⟨rfl, rfl⟩ | ⟨rfl, rfl⟩⟩
    · exact List.Perm.refl _
    · exact List.Perm.swap _ _ _
  · cases same
  · rw [eq_of_beq same]

namespace Instruction

variable {α : Type}

@[simp]
theorem angle?_onQubits (gate : Gate α) (qubits : List ℕ) :
    (onQubits gate qubits).angle? = gate.angle? :=
  rfl

theorem turnAngle?_onQubits (turn : Turn) (qubits : List ℕ) (gate : Gate α) (operands : List ℕ) :
    turnAngle? turn qubits (onQubits gate operands) =
      if operands.Perm qubits then turn.angle? gate else none :=
  rfl

theorem angle?_of_turnAngle? {instruction : Instruction α} {turn : Turn} {qubits : List ℕ}
    {angle : α} (found : turnAngle? turn qubits instruction = some angle) :
    instruction.angle? = some angle := by
  unfold turnAngle? at found
  split at found
  · rcases Option.bind_eq_some_iff.1 found with ⟨gate, isGate, angle_eq⟩
    rw [angle?, isGate, Turn.angle?_eq_some_iff.1 angle_eq, Option.bind_some, Turn.gate_angle?]
  · cases found

theorem turnAngle?_eq_none {instruction : Instruction α} (free : instruction.angle? = none)
    (turn : Turn) (qubits : List ℕ) : turnAngle? turn qubits instruction = none := by
  rw [Option.eq_none_iff_forall_ne_some]
  intro angle found
  cases free.symm.trans (angle?_of_turnAngle? found)

end Instruction

section Lists

variable {α : Type} (turn : Turn) (qubits : List ℕ)

theorem anglesOf_append (first second : List (Instruction α)) :
    anglesOf turn qubits (first ++ second) =
      anglesOf turn qubits first ++ anglesOf turn qubits second :=
  List.filterMap_append

theorem anglesOf_cons_gate (kind : Turn) (angle : α) (operands : List ℕ)
    (rest : List (Instruction α)) :
    anglesOf turn qubits (.onQubits (kind.gate angle) operands :: rest) =
      if operands.Perm qubits ∧ turn = kind then angle :: anglesOf turn qubits rest
      else anglesOf turn qubits rest := by
  by_cases same : turn = kind
  · subst same
    by_cases placed : operands.Perm qubits <;>
      simp [anglesOf, Instruction.turnAngle?_onQubits, placed]
  · simp [anglesOf, Instruction.turnAngle?_onQubits, Turn.angle?_gate_other same, same]

theorem anglesOf_eq_nil {instructions : List (Instruction α)}
    (free : ∀ instruction ∈ instructions, instruction.angle? = none) :
    anglesOf turn qubits instructions = [] := by
  rw [anglesOf, List.filterMap_eq_nil_iff]
  intro instruction listed
  exact Instruction.turnAngle?_eq_none (free instruction listed) turn qubits

theorem anglesOf_sublist {first second : List (Instruction α)} (sublist : first.Sublist second) :
    (anglesOf turn qubits first).Sublist (anglesOf turn qubits second) :=
  sublist.filterMap _

end Lists

theorem anglesDiscernible_of_free {instructions : List (Instruction ℝ)}
    (free : ∀ instruction ∈ instructions, instruction.angle? = none) :
    AnglesDiscernible instructions := by
  intro turn qubits
  rw [anglesOf_eq_nil turn qubits free]
  exact Discernible.nil

namespace AnglesDiscernible

/-- The angles of a list are discernible if they are all on one grid. -/
theorem of_grid {step : ℝ} {parts : ℤ} (wide : Gate.angleTolerance ≤ step)
    (closes : 2 * Real.pi = parts * step) {instructions : List (Instruction ℝ)}
    (onGrid : ∀ instruction ∈ instructions, ∀ angle ∈ instruction.angle?,
      ∃ count : ℤ, angle = count * step) : AnglesDiscernible instructions := by
  intro turn qubits
  apply Discernible.of_grid wide closes
  intro angle listed
  rcases List.mem_filterMap.1 listed with ⟨instruction, present, angle_eq⟩
  exact onGrid instruction present angle (Instruction.angle?_of_turnAngle? angle_eq)

theorem of_sublist {source part : List (Instruction ℝ)} (discernible : AnglesDiscernible source)
    (sublist : part.Sublist source) : AnglesDiscernible part :=
  fun turn qubits => (discernible turn qubits).sublist (anglesOf_sublist turn qubits sublist)

variable {turn : Turn} {angle angle' : ℝ} {qubits qubits' : List ℕ}

/-- Two turns on the same operands, in any order, of which one passes for the other's inverse. -/
theorem opposite (discernible : AnglesDiscernible
      [.onQubits (turn.gate angle) qubits, .onQubits (turn.gate angle') qubits'])
    (perm : qubits.Perm qubits') (passes : Gate.sameAngle (-angle) angle') : -angle = angle' := by
  have told := (discernible turn qubits').opposite [angle] [angle']
  simp only [List.sum_singleton] at told
  refine told ?_ passes
  rw [anglesOf_cons_gate, if_pos ⟨perm, rfl⟩, anglesOf_cons_gate, if_pos ⟨.refl _, rfl⟩]
  simp [anglesOf]

/-- Two turns on the same operands that pass for a full turn. -/
theorem full (discernible : AnglesDiscernible
      [.onQubits (turn.gate angle) qubits, .onQubits (turn.gate angle') qubits])
    (passes : Scalar.abs (Scalar.normalizeAngle (angle + angle')) < Gate.angleTolerance) :
    ∃ count : ℤ, angle + angle' = count * (2 * Real.pi) := by
  have told := (discernible turn qubits).full [angle, angle']
  simp only [List.sum_cons, List.sum_nil, add_zero] at told
  refine told ?_ passes
  rw [anglesOf_cons_gate, if_pos ⟨.refl _, rfl⟩, anglesOf_cons_gate, if_pos ⟨.refl _, rfl⟩]
  simp [anglesOf]

end AnglesDiscernible

namespace Peephole

/-- The angle of a product is that of one of its factors' kind. -/
theorem free_of_product {α : Type} [Scalar α] {first second : Gate α} {product : Product α}
    (found : Product.ofGates? first second = some product) (free : first.angle? = none)
    (qubits : List ℕ) :
    ∀ instruction ∈ product.instructions qubits, instruction.angle? = none := by
  rcases Product.ofGates?_cases found with ⟨turn, -, angle, -, rfl, -, -⟩ | ⟨-, -, cases⟩
  · simp at free
  · obtain ⟨-, rfl⟩ | ⟨-, rfl⟩ | ⟨-, rfl⟩ | ⟨-, rfl⟩ | ⟨-, rfl⟩ := cases <;>
      simp [Product.instructions, Gate.angle?]

theorem free_of_template {α : Type} [Scalar α] {instruction : Instruction α}
    {rest replacement remaining : List (Instruction α)}
    (found : matchTemplate? instruction rest = some (replacement, remaining)) :
    ∀ new ∈ replacement, new.angle? = none := by
  rcases exists_of_matchTemplate? found with ⟨wire, template, known, -, -, -, rfl⟩
  intro new listed
  rcases List.mem_map.1 listed with ⟨gate, used, rfl⟩
  exact (Template.free_of_mem_all known
    (by simp [used] : gate ∈ template.head :: template.tail ++ template.replacement)).1

theorem remaining_sublist {α : Type} [Scalar α] {instruction : Instruction α}
    {rest replacement remaining : List (Instruction α)}
    (found : matchTemplate? instruction rest = some (replacement, remaining)) :
    remaining.Sublist rest := by
  rcases exists_of_matchTemplate? found with ⟨wire, template, -, -, -, taken, -⟩
  exact taken.sublist

theorem StepBy.anglesDiscernible {granted : Comparison ℝ → Prop}
    {source target : List (Instruction ℝ)} (step : StepBy granted source target)
    (discernible : AnglesDiscernible source) : AnglesDiscernible target := by
  intro turn qubits
  have told := discernible turn qubits
  cases step with
  | drop identity =>
      apply told.sublist
      apply anglesOf_sublist
      simp
  | cancel undone commute =>
      apply told.sublist
      apply anglesOf_sublist
      simp
  | @merge before after first second product found =>
      obtain ⟨gate, other, operands, rfl, rfl, -, -, product_eq⟩ :=
        Product.exists_of_ofInstructions? found
      obtain ⟨turn', -, angle, angle', rfl, rfl, rfl⟩ | ⟨free, -, -⟩ :=
        Product.ofGates?_cases product_eq
      · -- the angles of the two turns are added up or dropped, if they are of the kind in question
        simp only [anglesOf_append, anglesOf_cons_gate] at told
        rw [Product.rotation]
        split
        · apply told.sublist
          simp only [Product.instructions, List.nil_append, anglesOf_append]
          split <;> simp
        · simp only [Product.instructions, List.singleton_append, anglesOf_append,
            anglesOf_cons_gate, Instruction.onQubits_qubits]
          split
          · rename_i relevant
            rw [if_pos relevant, if_pos relevant] at told
            exact told.merge
          · rename_i irrelevant
            rw [if_neg irrelevant, if_neg irrelevant] at told
            exact told
      · have none_eq := anglesOf_eq_nil turn qubits (free_of_product product_eq free operands)
        apply told.sublist
        rw [anglesOf_append, anglesOf_append, Instruction.onQubits_qubits, none_eq,
          List.nil_append, ← anglesOf_append]
        apply anglesOf_sublist
        simp
  | @template before rest replacement remaining instruction found =>
      have none_eq := anglesOf_eq_nil turn qubits (free_of_template found)
      apply told.sublist
      rw [anglesOf_append, anglesOf_append, none_eq, List.nil_append, ← anglesOf_append]
      apply anglesOf_sublist
      exact (List.Sublist.refl before).append ((remaining_sublist found).cons instruction)

theorem StepBy.free {α : Type} [Scalar α] {granted : Comparison α → Prop}
    {source target : List (Instruction α)}
    (step : StepBy granted source target)
    (free : ∀ instruction ∈ source, instruction.angle? = none) :
    ∀ instruction ∈ target, instruction.angle? = none := by
  intro instruction listed
  obtain kept | ⟨gate, other, merged, qubits, present, -, -, product_eq, rfl⟩ |
    ⟨template, known, gate, used, wire, -, -, -, rfl⟩ := step.mem_cases listed
  · exact free instruction kept
  · exact free_of_product product_eq (free _ present) qubits _ (by simp [Product.instructions])
  · exact (Template.free_of_mem_all known
      (by simp [used] : gate ∈ template.head :: template.tail ++ template.replacement)).1

theorem ReachesBy.wellFormed_anglesDiscernible {width : ℕ} {granted : Comparison ℝ → Prop}
    {source target : List (Instruction ℝ)}
    (reaches : ReachesBy granted source target)
    (wellFormed : ∀ instruction ∈ source, instruction.WellFormed width)
    (discernible : AnglesDiscernible source) :
    (∀ instruction ∈ target, instruction.WellFormed width) ∧ AnglesDiscernible target := by
  induction reaches with
  | refl => exact ⟨wellFormed, discernible⟩
  | tail _ step ih => exact ⟨step.wellFormed ih.1, step.anglesDiscernible ih.2⟩

/-- A comparison within a well-formed list with discernible angles is exact. -/
theorem Comparison.exact_of_anglesDiscernible {width : ℕ} {instructions : List (Instruction ℝ)}
    (wellFormed : ∀ instruction ∈ instructions, instruction.WellFormed width)
    (discernible : AnglesDiscernible instructions) {comparison : Comparison ℝ}
    (occurs : comparison.OccursIn instructions) : comparison.Exact := by
  have pair := discernible.of_sublist occurs
  have distinct := (wellFormed comparison.first (occurs.mem List.mem_cons_self)).distinct
  rcases comparison with ⟨test, first, second⟩
  cases test with
  | undoes =>
      intro undone angle present angle' present'
      obtain ⟨gate, other, qubits, qubits', rfl, rfl, close, same⟩ :=
        Instruction.exists_of_undoneBy undone
      obtain ⟨other_eq, free⟩ | ⟨turn, opposite, angle'', inverse_eq, rfl, passes⟩ :=
        Gate.approxEq_cases close
      · have free' : gate.angle? = none := by simpa [Gate.angle?_inverse] using free
        simp [free'] at present
      · rcases Turn.exists_of_inverse_eq inverse_eq with ⟨own, rfl, rfl⟩
        obtain rfl : own = angle := by simpa using present
        obtain rfl : angle'' = angle' := by simpa using present'
        exact pair.opposite (Gate.perm_of_sameOperands distinct same) passes
  | fullTurn =>
      intro found angle present angle' present'
      obtain ⟨gate, other, operands, rfl, rfl, -, -, product_eq⟩ :=
        Product.exists_of_ofInstructions? found
      obtain ⟨turn, -, own, own', rfl, rfl, dropped⟩ | ⟨free, -, -⟩ :=
        Product.ofGates?_cases product_eq
      · obtain rfl : own = angle := by simpa using present
        obtain rfl : own' = angle' := by simpa using present'
        rw [Scalar.exact_turn]
        exact pair.full (Product.small_of_rotation dropped.symm)
      · simp [free] at present

end Peephole

/-- The optimiser compares exactly on a list with discernible angles. -/
theorem ComparesExactly.of_anglesDiscernible {width : ℕ} {instructions : List (Instruction ℝ)}
    (wellFormed : ∀ instruction ∈ instructions, instruction.WellFormed width)
    (discernible : AnglesDiscernible instructions) (level : ℕ) :
    ComparesExactly instructions level := by
  intro comparison listed
  obtain ⟨reached, reaches, occurs⟩ := (optimize_trace instructions level).made comparison listed
  obtain ⟨wellFormed', discernible'⟩ :=
    reaches.wellFormed_anglesDiscernible wellFormed discernible
  exact Peephole.Comparison.exact_of_anglesDiscernible wellFormed' discernible' occurs

end Anyonic
