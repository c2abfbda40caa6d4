import Mathlib
import Anyonic.Gate

/-!
# Exact scalars

The real numbers as scalars of the compiler.  Sums, products, roots and the circular functions
are exact, and the tolerances of the compiler keep their values, so a statement about circuits
over these scalars says what the compiler does when nothing is rounded.
-/

namespace Anyonic

open Classical in
noncomputable instance Scalar.exact : Scalar ℝ where
  beq first second := decide (first = second)
  decidableLT := inferInstance
  decidableLE := inferInstance
  pi := Real.pi
  abs value := |value|
  sqrt := Real.sqrt
  sin := Real.sin
  cos := Real.cos
  angleOf second first := Complex.arg ⟨first, second⟩
  hypot first second := Real.sqrt (first ^ 2 + second ^ 2)
  remainder value modulus :=
    value - modulus * (if 0 ≤ value / modulus then ⌊value / modulus⌋ else ⌈value / modulus⌉)
  nearest value := if 0 ≤ value then ⌊value + 0.5⌋ else ⌈value - 0.5⌉
  ofInt value := value
  isFinite _ := true

namespace Scalar

@[simp] theorem exact_pi : (Scalar.pi : ℝ) = Real.pi := rfl

@[simp] theorem exact_abs (value : ℝ) : Scalar.abs value = |value| := rfl

@[simp] theorem exact_sqrt (value : ℝ) : Scalar.sqrt value = Real.sqrt value := rfl

@[simp] theorem exact_sin (angle : ℝ) : Scalar.sin angle = Real.sin angle := rfl

@[simp] theorem exact_cos (angle : ℝ) : Scalar.cos angle = Real.cos angle := rfl

theorem exact_turn : (Scalar.turn : ℝ) = 2 * Real.pi := by
  norm_num [Scalar.turn]

/-- The remainder differs from the dividend by a multiple of the modulus. -/
theorem exists_remainder_eq (value modulus : ℝ) :
    ∃ count : ℤ, Scalar.remainder value modulus = value - count * modulus := by
  refine ⟨if 0 ≤ value / modulus then ⌊value / modulus⌋ else ⌈value / modulus⌉, ?_⟩
  simp only [Scalar.remainder]
  split <;> ring

theorem exists_normalizeAngle_eq (angle : ℝ) :
    ∃ count : ℤ, Scalar.normalizeAngle angle = angle - count * (2 * Real.pi) := by
  rcases exists_remainder_eq angle (2 * Real.pi) with ⟨count, remainder_eq⟩
  have turn_abs : |2 * Real.pi| = 2 * Real.pi := abs_of_pos Real.two_pi_pos
  have residue_eq : ∃ count : ℤ,
      Scalar.residue angle (2 * Real.pi) = angle - count * (2 * Real.pi) := by
    simp only [Scalar.residue, exact_abs, turn_abs]
    split
    · exact ⟨count - 1, by rw [remainder_eq]; push_cast; ring⟩
    · exact ⟨count, remainder_eq⟩
  rcases residue_eq with ⟨count, residue_eq⟩
  simp only [Scalar.normalizeAngle, exact_turn, residue_eq]
  split
  · split
    · exact ⟨count + 1, by push_cast; ring⟩
    · exact ⟨count, rfl⟩
  · rename_i notFinite
    exact absurd rfl notFinite

theorem normalizeAngle_eq_self {angle : ℝ} (above : -Real.pi < angle) (below : angle ≤ Real.pi) :
    normalizeAngle angle = angle := by
  have pi_pos := Real.pi_pos
  have remainder_eq : remainder angle (2 * Real.pi) = angle := by
    simp only [remainder]
    split
    · rename_i nonneg
      have floor_eq : ⌊angle / (2 * Real.pi)⌋ = 0 := by
        rw [Int.floor_eq_zero_iff]
        refine ⟨nonneg, ?_⟩
        rw [div_lt_one Real.two_pi_pos]
        linarith
      rw [floor_eq, Int.cast_zero, mul_zero, sub_zero]
    · rename_i negative
      have ceil_eq : ⌈angle / (2 * Real.pi)⌉ = 0 := by
        rw [Int.ceil_eq_zero_iff, Set.mem_Ioc]
        refine ⟨?_, (not_le.1 negative).le⟩
        rw [lt_div_iff₀ Real.two_pi_pos]
        linarith
      rw [ceil_eq, Int.cast_zero, mul_zero, sub_zero]
  have turn_abs : |2 * Real.pi| = 2 * Real.pi := abs_of_pos Real.two_pi_pos
  have zero : (0.0 : ℝ) = 0 := by norm_num
  simp only [normalizeAngle, isFinite, exact_turn, residue, remainder_eq, exact_abs, turn_abs, zero,
    exact_pi, if_true]
  split
  · rw [if_pos (by linarith)]
    ring
  · rw [if_neg (not_lt.2 below)]

/-- The nearest integer is at most half a unit away. -/
theorem abs_nearest_sub_le (value : ℝ) : |(nearest value : ℝ) - value| ≤ 1 / 2 := by
  have half : (0.5 : ℝ) = 1 / 2 := by norm_num
  simp only [nearest, half]
  rw [abs_le]
  split
  · have lower := Int.sub_one_lt_floor (value + 1 / 2)
    have upper := Int.floor_le (value + 1 / 2)
    constructor <;> linarith
  · have lower := Int.le_ceil (value - 1 / 2)
    have upper := Int.ceil_lt_add_one (value - 1 / 2)
    constructor <;> linarith

theorem nearest_eq {value : ℝ} {integer : ℤ} (near : |value - integer| < 1 / 2) :
    nearest value = integer := by
  have close : |((nearest value - integer : ℤ) : ℝ)| < 1 := by
    have rounded := abs_nearest_sub_le value
    rw [abs_le] at rounded
    rw [abs_lt] at near ⊢
    push_cast
    constructor <;> linarith
  have none : nearest value - integer = 0 := by
    rw [← Int.cast_abs] at close
    exact Int.abs_lt_one_iff.1 (by exact_mod_cast close)
  omega

end Scalar

namespace Gate

theorem sameAngle_iff (first second : ℝ) :
    sameAngle first second = true ↔ |first - second| < 1e-10 := by
  exact decide_eq_true_iff

end Gate

end Anyonic
