import Mathlib

/-!
# Operators on a register of qubits

A register of `width` qubits has one basis state for every choice of a value for each qubit, and
an operator on it is a complex matrix over the basis states.  A matrix on some of the qubits,
given by the values that it reads off them, is embedded into the register by leaving the values of
all other qubits as they are.  Operators embedded on disjoint qubits commute.
-/

namespace Anyonic

/-- A choice of a value for every qubit of a register. -/
abbrev Basis (width : ℕ) := Fin width → Bool

/-- An operator on a register. -/
abbrev Operator (width : ℕ) := Matrix (Basis width) (Basis width) ℂ

/-- A matrix on listed qubits, with rows and columns the values of the qubits in order. -/
abbrev LocalMatrix := Matrix (List Bool) (List Bool) ℂ

namespace Basis

variable {width : ℕ}

/-- The value of a qubit; there is nothing to read beyond the register. -/
def bit (state : Basis width) (qubit : ℕ) : Bool :=
  if inRange : qubit < width then state ⟨qubit, inRange⟩ else false

/-- The state with another value of one qubit. -/
def set (state : Basis width) (qubit : ℕ) (value : Bool) : Basis width :=
  fun wire => if wire.val = qubit then value else state wire

/-- The values of listed qubits. -/
def read (state : Basis width) (qubits : List ℕ) : List Bool := qubits.map state.bit

/-- Two states that differ at most on the listed qubits. -/
def AgreeOff (qubits : List ℕ) (first second : Basis width) : Prop :=
  ∀ wire : Fin width, wire.val ∉ qubits → first wire = second wire

instance (qubits : List ℕ) (first second : Basis width) :
    Decidable (AgreeOff qubits first second) :=
  inferInstanceAs (Decidable (∀ wire : Fin width, wire.val ∉ qubits → first wire = second wire))

@[simp]
theorem bit_val (state : Basis width) (wire : Fin width) : state.bit wire.val = state wire := by
  simp [bit]

theorem ext_bit {first second : Basis width}
    (same : ∀ qubit, qubit < width → first.bit qubit = second.bit qubit) : first = second := by
  funext wire
  simpa using same wire.val wire.isLt

@[simp]
theorem bit_set_same (state : Basis width) {qubit : ℕ} (inRange : qubit < width)
    (value : Bool) : (state.set qubit value).bit qubit = value := by
  simp [bit, set, inRange]

theorem bit_set_other (state : Basis width) {qubit other : ℕ} (different : other ≠ qubit)
    (value : Bool) : (state.set qubit value).bit other = state.bit other := by
  simp [bit, set, different]

@[simp]
theorem set_set (state : Basis width) (qubit : ℕ) (first second : Bool) :
    (state.set qubit first).set qubit second = state.set qubit second := by
  funext wire
  by_cases same : wire.val = qubit <;> simp [set, same]

@[simp]
theorem set_bit (state : Basis width) (qubit : ℕ) : state.set qubit (state.bit qubit) = state := by
  funext wire
  by_cases same : wire.val = qubit
  · subst same
    simp [set]
  · simp [set, same]

theorem set_comm (state : Basis width) {qubit other : ℕ} (different : other ≠ qubit)
    (value otherValue : Bool) :
    (state.set qubit value).set other otherValue =
      (state.set other otherValue).set qubit value := by
  funext wire
  by_cases same : wire.val = qubit
  · simp [set, same, different.symm]
  · simp [set, same]

theorem read_congr {first second : Basis width} {qubits : List ℕ}
    (same : ∀ qubit ∈ qubits, first.bit qubit = second.bit qubit) :
    first.read qubits = second.read qubits :=
  List.map_congr_left same

theorem bit_eq_of_read_eq {first second : Basis width} {qubits : List ℕ}
    (same : first.read qubits = second.read qubits) {qubit : ℕ} (listed : qubit ∈ qubits) :
    first.bit qubit = second.bit qubit :=
  List.map_inj_left.1 same qubit listed

namespace AgreeOff

variable {qubits : List ℕ} {first second third : Basis width}

theorem refl (qubits : List ℕ) (state : Basis width) : AgreeOff qubits state state :=
  fun _ _ => rfl

theorem symm (agree : AgreeOff qubits first second) : AgreeOff qubits second first :=
  fun wire unlisted => (agree wire unlisted).symm

theorem trans (agree : AgreeOff qubits first second) (agree' : AgreeOff qubits second third) :
    AgreeOff qubits first third :=
  fun wire unlisted => (agree wire unlisted).trans (agree' wire unlisted)

theorem bit_eq (agree : AgreeOff qubits first second) {qubit : ℕ} (unlisted : qubit ∉ qubits) :
    first.bit qubit = second.bit qubit := by
  unfold bit
  split
  · exact agree _ unlisted
  · rfl

/-- States that agree off some qubits and have the same values on them are the same. -/
theorem eq_of_read_eq (agree : AgreeOff qubits first second)
    (same : first.read qubits = second.read qubits) : first = second := by
  apply ext_bit
  intro qubit _
  by_cases listed : qubit ∈ qubits
  · exact bit_eq_of_read_eq same listed
  · exact agree.bit_eq listed

theorem of_set (state : Basis width) {qubit : ℕ} (listed : qubit ∈ qubits) (value : Bool) :
    AgreeOff qubits (state.set qubit value) state := by
  intro wire unlisted
  have : wire.val ≠ qubit := fun same => unlisted (same ▸ listed)
  simp [set, this]

theorem eq_set {qubit : ℕ} (agree : AgreeOff [qubit] first second) :
    first = second.set qubit (first.bit qubit) := by
  funext wire
  by_cases same : wire.val = qubit
  · subst same
    simp [set]
  · rw [agree wire (by simpa using same)]
    simp [set, same]

end AgreeOff

end Basis

namespace Operator

variable {width : ℕ}

/-- A matrix on listed qubits as an operator on the register. -/
def embed (qubits : List ℕ) (entries : LocalMatrix) : Operator width :=
  Matrix.of fun row column =>
    if Basis.AgreeOff qubits row column then entries (row.read qubits) (column.read qubits) else 0

theorem embed_apply (qubits : List ℕ) (entries : LocalMatrix) (row column : Basis width) :
    embed qubits entries row column =
      if Basis.AgreeOff qubits row column then entries (row.read qubits) (column.read qubits)
      else 0 :=
  rfl

/-- The state that has the values of one state on some qubits and those of another elsewhere. -/
def mixed (qubits : List ℕ) (inside outside : Basis width) : Basis width :=
  fun wire => if wire.val ∈ qubits then inside wire else outside wire

theorem mixed_agreeOff (qubits : List ℕ) (inside outside : Basis width) :
    Basis.AgreeOff qubits (mixed qubits inside outside) outside := by
  intro wire unlisted
  simp [mixed, unlisted]

theorem mixed_read (qubits : List ℕ) (inside outside : Basis width) :
    (mixed qubits inside outside).read qubits = inside.read qubits := by
  apply Basis.read_congr
  intro qubit listed
  simp [Basis.bit, mixed, listed]

/--
The product of operators embedded on disjoint qubits: the only way from one state to another is
to change the values on the right factor's qubits first and those on the left factor's after it.
-/
theorem embed_mul_embed_apply {first second : List ℕ} (disjoint : List.Disjoint first second)
    (entries entries' : LocalMatrix) (row column : Basis width) :
    (embed first entries * embed second entries' : Operator width) row column =
      if Basis.AgreeOff (first ++ second) row column then
        entries (row.read first) (column.read first) *
          entries' (row.read second) (column.read second)
      else 0 := by
  have passage : ∀ middle : Basis width,
      Basis.AgreeOff first row middle → Basis.AgreeOff second middle column →
        middle = mixed first column row := by
    intro middle agree agree'
    funext wire
    by_cases listed : wire.val ∈ first
    · simp [mixed, listed, agree' wire (disjoint listed)]
    · simp [mixed, listed, (agree wire listed).symm]
  rw [Matrix.mul_apply, Finset.sum_eq_single (mixed first column row)]
  · have agree := (mixed_agreeOff first column row).symm
    have readSecond : (mixed first column row).read second = row.read second :=
      Basis.read_congr fun qubit listed => (agree.bit_eq fun other => disjoint other listed).symm
    have iff_agree : Basis.AgreeOff second (mixed first column row) column ↔
        Basis.AgreeOff (first ++ second) row column := by
      constructor
      · intro agree' wire unlisted
        simp only [List.mem_append, not_or] at unlisted
        exact (agree wire unlisted.1).trans (agree' wire unlisted.2)
      · intro agree' wire unlisted
        by_cases listed : wire.val ∈ first
        · simp [mixed, listed]
        · simp [mixed, listed, agree' wire (by simp [listed, unlisted])]
    simp only [embed_apply, agree, if_true, mixed_read, readSecond, iff_agree, mul_ite, mul_zero]
  · intro middle _ different
    simp only [embed_apply]
    split
    · split
      · exact absurd (passage middle ‹_› ‹_›) different
      · rw [mul_zero]
    · rw [zero_mul]
  · intro absent
    exact absurd (Finset.mem_univ _) absent

theorem embed_commute {first second : List ℕ} (disjoint : List.Disjoint first second)
    (entries entries' : LocalMatrix) :
    Commute (embed first entries : Operator width) (embed second entries') := by
  ext row column
  rw [embed_mul_embed_apply disjoint, embed_mul_embed_apply disjoint.symm, mul_comm]
  have : Basis.AgreeOff (first ++ second) row column ↔
      Basis.AgreeOff (second ++ first) row column := by
    simp [Basis.AgreeOff, and_comm]
  simp only [this]

end Operator

end Anyonic
