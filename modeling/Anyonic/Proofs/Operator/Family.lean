import Anyonic.Proofs.Exact.Matrix
import Anyonic.Proofs.Operator.Register

/-!
# Families of operators

Three shapes of operators that every gate has at least one of.  A diagonal operator weighs the
basis states, a map of basis states permutes them, and a wire operator applies to one qubit a
matrix that the values of the other qubits choose.  Products within a shape are computed state by
state, a diagonal operator moves past a map, and the shapes overlap: a diagonal operator is a wire
operator on every qubit, and so is a map that flips one qubit under a condition on the others.
-/

namespace Anyonic.Operator

variable {width : ℕ}

/-- The operator that takes every basis state to another one. -/
def ofMap (action : Basis width → Basis width) : Operator width :=
  Matrix.of fun row column => if row = action column then 1 else 0

/-- The operator that applies to one qubit a matrix chosen by the state of the register. -/
def onWire (qubit : ℕ) (family : Basis width → Matrix Bool Bool ℂ) : Operator width :=
  Matrix.of fun row column =>
    if Basis.AgreeOff [qubit] row column then family row (row.bit qubit) (column.bit qubit) else 0

/-- What the state of the register chooses does not depend on the given qubit. -/
def Ignores {β : Type} (qubit : ℕ) (choice : Basis width → β) : Prop :=
  ∀ state value, choice (state.set qubit value) = choice state

section Maps

theorem ofMap_mul (first second : Basis width → Basis width) :
    ofMap first * ofMap second = ofMap (first ∘ second) := by
  ext row column
  simp [Matrix.mul_apply, ofMap]

theorem ofMap_id : (ofMap id : Operator width) = 1 := by
  ext row column
  simp [ofMap, Matrix.one_apply]

/-- A diagonal operator behind a map weighs the states that the map leads to. -/
theorem diagonal_mul_ofMap (weight : Basis width → ℂ) (action : Basis width → Basis width) :
    Matrix.diagonal weight * ofMap action = ofMap action * Matrix.diagonal (weight ∘ action) := by
  ext row column
  rw [Matrix.diagonal_mul, Matrix.mul_diagonal]
  by_cases same : row = action column
  · simp [ofMap, same]
  · simp [ofMap, same]

theorem diagonal_commute_ofMap {weight : Basis width → ℂ} {action : Basis width → Basis width}
    (unseen : ∀ state, weight (action state) = weight state) :
    Commute (Matrix.diagonal weight) (ofMap action) := by
  have : weight ∘ action = weight := funext unseen
  rw [Commute, SemiconjBy, diagonal_mul_ofMap, this]

theorem diagonal_commute_diagonal (first second : Basis width → ℂ) :
    Commute (Matrix.diagonal first : Operator width) (Matrix.diagonal second) := by
  rw [Commute, SemiconjBy, Matrix.diagonal_mul_diagonal, Matrix.diagonal_mul_diagonal]
  simp only [mul_comm]

end Maps

section Wires

variable {qubit : ℕ}

theorem ignores_const {β : Type} (value : β) :
    Ignores qubit (fun _ : Basis width => value) :=
  fun _ _ => rfl

theorem Ignores.map {β γ : Type} {choice : Basis width → β} (ignores : Ignores qubit choice)
    (function : β → γ) : Ignores qubit fun state => function (choice state) :=
  fun state value => congrArg function (ignores state value)

theorem Ignores.map₂ {β γ δ : Type} {first : Basis width → β} {second : Basis width → γ}
    (ignores : Ignores qubit first) (ignores' : Ignores qubit second) (function : β → γ → δ) :
    Ignores qubit fun state => function (first state) (second state) :=
  fun state value => congrArg₂ function (ignores state value) (ignores' state value)

theorem ignores_bit {other : ℕ} (different : other ≠ qubit) :
    Ignores qubit fun state : Basis width => state.bit other :=
  fun state value => state.bit_set_other different value

theorem onWire_apply (family : Basis width → Matrix Bool Bool ℂ) (row column : Basis width) :
    onWire qubit family row column =
      if Basis.AgreeOff [qubit] row column then family row (row.bit qubit) (column.bit qubit)
      else 0 :=
  rfl

/-- A sum over the states that agree with one off a qubit has two terms. -/
theorem sum_agreeOff (inRange : qubit < width) (state : Basis width) (term : Basis width → ℂ) :
    (∑ other, if Basis.AgreeOff [qubit] state other then term other else 0) =
      term (state.set qubit true) + term (state.set qubit false) := by
  have pair : (Finset.univ.filter fun other => Basis.AgreeOff [qubit] state other) =
      {state.set qubit true, state.set qubit false} := by
    ext other
    simp only [Finset.mem_filter, Finset.mem_univ, true_and, Finset.mem_insert,
      Finset.mem_singleton]
    constructor
    · intro agree
      rw [agree.symm.eq_set]
      cases other.bit qubit
      · exact Or.inr rfl
      · exact Or.inl rfl
    · rintro (rfl | rfl) <;> exact (Basis.AgreeOff.of_set state (by simp) _).symm
  have different : state.set qubit true ≠ state.set qubit false := by
    intro same
    simpa [inRange] using congrArg (Basis.bit · qubit) same
  rw [← Finset.sum_filter, pair, Finset.sum_pair different]

theorem onWire_mul (inRange : qubit < width) (first : Basis width → Matrix Bool Bool ℂ)
    {second : Basis width → Matrix Bool Bool ℂ} (ignores : Ignores qubit second) :
    onWire qubit first * onWire qubit second =
      onWire qubit fun state => first state * second state := by
  ext row column
  have factor : ∀ middle : Basis width,
      onWire qubit first row middle * onWire qubit second middle column =
        if Basis.AgreeOff [qubit] row middle then
          first row (row.bit qubit) (middle.bit qubit) *
            onWire qubit second middle column
        else 0 := by
    intro middle
    rw [onWire_apply, ite_mul, zero_mul]
  have after : ∀ value, onWire qubit second (row.set qubit value) column =
      if Basis.AgreeOff [qubit] row column then second row value (column.bit qubit) else 0 := by
    intro value
    have iff_agree : Basis.AgreeOff [qubit] (row.set qubit value) column ↔
        Basis.AgreeOff [qubit] row column :=
      ⟨(Basis.AgreeOff.of_set row (by simp) value).symm.trans,
        (Basis.AgreeOff.of_set row (by simp) value).trans⟩
    rw [onWire_apply, ignores, Basis.bit_set_same _ inRange]
    simp only [iff_agree]
  rw [Matrix.mul_apply]
  simp only [factor]
  rw [sum_agreeOff inRange, Basis.bit_set_same _ inRange, Basis.bit_set_same _ inRange, after,
    after, onWire_apply]
  split
  · rw [Matrix.mul_apply, Fintype.sum_bool]
  · simp

theorem onWire_commute (inRange : qubit < width) {first second : Matrix Bool Bool ℂ}
    (commute : Commute first second) :
    Commute (onWire qubit fun _ => first : Operator width) (onWire qubit fun _ => second) := by
  rw [Commute, SemiconjBy, onWire_mul inRange _ (ignores_const _),
    onWire_mul inRange _ (ignores_const _), commute.eq]

theorem onWire_congr {first second : Basis width → Matrix Bool Bool ℂ}
    (same : ∀ state, first state = second state) : onWire qubit first = onWire qubit second := by
  rw [funext same]

/-- A diagonal operator is a wire operator on any qubit. -/
theorem diagonal_eq_onWire (weight : Basis width → ℂ) (qubit : ℕ) :
    Matrix.diagonal weight =
      onWire qubit fun state => Matrix.diagonal fun value => weight (state.set qubit value) := by
  ext row column
  rw [onWire_apply]
  by_cases same : row = column
  · subst same
    simp [Basis.AgreeOff.refl]
  · rw [Matrix.diagonal_apply_ne _ same]
    split
    · rename_i agree
      have different : row.bit qubit ≠ column.bit qubit := by
        intro equal
        exact same (agree.eq_of_read_eq (by simp [Basis.read, equal]))
      rw [Matrix.diagonal_apply_ne _ different]
    · rfl

theorem onWire_one : (onWire qubit fun _ => 1 : Operator width) = 1 := by
  have := diagonal_eq_onWire (fun _ : Basis width => 1) qubit
  rw [Matrix.diagonal_one] at this
  rw [this]
  simp

theorem onWire_smul (scale : ℂ) (family : Basis width → Matrix Bool Bool ℂ) :
    (onWire qubit fun state => scale • family state) = scale • onWire qubit family := by
  ext row column
  simp [onWire_apply]

/-- Flipping a qubit where a condition holds. -/
def flipWhere (qubit : ℕ) (condition : Basis width → Bool) (state : Basis width) : Basis width :=
  state.set qubit (condition state ^^ state.bit qubit)

theorem flipWhere_involutive (inRange : qubit < width) {condition : Basis width → Bool}
    (ignores : Ignores qubit condition) :
    flipWhere qubit condition ∘ flipWhere qubit condition = id := by
  funext state
  simp [flipWhere, inRange, ignores state]

theorem bit_flipWhere_other {other : ℕ} (different : other ≠ qubit)
    (condition : Basis width → Bool) (state : Basis width) :
    (flipWhere qubit condition state).bit other = state.bit other :=
  state.bit_set_other different _

theorem bit_flipWhere_same (inRange : qubit < width) (condition : Basis width → Bool)
    (state : Basis width) :
    (flipWhere qubit condition state).bit qubit = (condition state ^^ state.bit qubit) :=
  state.bit_set_same inRange _

/-- A conditional flip is a wire operator. -/
theorem ofMap_flipWhere (inRange : qubit < width) {condition : Basis width → Bool}
    (ignores : Ignores qubit condition) :
    ofMap (flipWhere qubit condition) =
      onWire qubit fun state => if condition state then flipMatrix else 1 := by
  ext row column
  rw [onWire_apply]
  by_cases agree : Basis.AgreeOff [qubit] row column
  · have chosen : condition row = condition column := by
      rw [agree.eq_set, ignores]
    have iff_bit : row = flipWhere qubit condition column ↔
        row.bit qubit = (condition column ^^ column.bit qubit) := by
      constructor
      · intro same
        rw [same, bit_flipWhere_same inRange]
      · intro same
        rw [agree.eq_set, same, flipWhere]
    simp only [ofMap, Matrix.of_apply, iff_bit, agree, if_true, chosen]
    cases condition column <;> cases row.bit qubit <;> cases column.bit qubit <;> simp [flipMatrix]
  · have different : row ≠ flipWhere qubit condition column := by
      rintro rfl
      exact agree (Basis.AgreeOff.of_set column (by simp) _)
    simp [ofMap, agree, different]

end Wires

end Anyonic.Operator
