import Mathlib
import Anyonic.Proofs.Exact.Discrepancy

/-!
# Fingerprints of phase classes

In exact arithmetic the fingerprint of a unitary matrix depends on nothing but its class up to a
global phase, and it determines the class up to the resolution of the fingerprint.

The second statement holds of any two matrices with the same fingerprint.  Each is turned by its own
reference before its entries are rounded, and the references may come from different entries.  Both
are of size one, however, so that one of them and the inverse of the other make up a single phase.
-/

namespace Anyonic

namespace Scalar

theorem abs_sub_le_of_nearest_eq {first second : ℝ} (same : nearest first = nearest second) :
    |first - second| ≤ 1 := by
  have near := abs_nearest_sub_le first
  have near' := abs_nearest_sub_le second
  rw [abs_le] at near near' ⊢
  rw [same] at near
  constructor <;> linarith

theorem abs_nearest_le {value : ℝ} {bound : ℤ} (small : |value| ≤ bound) :
    |nearest value| ≤ bound := by
  have near := abs_nearest_sub_le value
  rw [abs_le] at near small ⊢
  have below : ((nearest value : ℤ) : ℝ) < (bound + 1 : ℤ) := by
    push_cast
    linarith
  have above : ((-bound - 1 : ℤ) : ℝ) < nearest value := by
    push_cast
    linarith
  have below := Int.cast_lt.1 below
  have above := Int.cast_lt.1 above
  omega

end Scalar

theorem QubitMatrix.keyScale_eq : (keyScale : ℝ) = 10 ^ 8 := by
  norm_num [keyScale]

namespace Amplitude

open QubitMatrix (keyScale keyScale_eq)

/-- The numbers that stand for an amplitude in a fingerprint. -/
noncomputable def cell (z : Amplitude ℝ) : List ℤ :=
  [Scalar.nearest (z.re * keyScale), Scalar.nearest (z.im * keyScale)]

theorem norm_sub_le_of_cell_eq {z w : Amplitude ℝ} (same : z.cell = w.cell) :
    ‖z.toComplex - w.toComplex‖ ≤ √2 * 1e-8 := by
  simp only [cell, List.cons.injEq, and_true] at same
  have part {first second : ℝ}
      (same : Scalar.nearest (first * keyScale) =
        Scalar.nearest (second * keyScale)) : |first - second| ≤ 1e-8 := by
    have near := Scalar.abs_sub_le_of_nearest_eq same
    rw [keyScale_eq, ← sub_mul, abs_mul] at near
    norm_num at near ⊢
    linarith
  apply (Complex.norm_le_sqrt_two_mul_max _).trans
  apply mul_le_mul_of_nonneg_left _ (Real.sqrt_nonneg 2)
  exact max_le (part same.1) (part same.2)

theorem abs_le_of_mem_cell {z : Amplitude ℝ} (small : ‖z.toComplex‖ ≤ 1) {number : ℤ}
    (listed : number ∈ z.cell) : |number| ≤ 10 ^ 8 := by
  have part {value : ℝ} (small : |value| ≤ 1) :
      |Scalar.nearest (value * keyScale)| ≤ 10 ^ 8 := by
    apply Scalar.abs_nearest_le
    rw [keyScale_eq, abs_mul]
    norm_num
    linarith
  simp only [cell, List.mem_cons, List.not_mem_nil, or_false] at listed
  rcases listed with rfl | rfl
  · exact part ((Complex.abs_re_le_norm z.toComplex).trans small)
  · exact part ((Complex.abs_im_le_norm z.toComplex).trans small)

end Amplitude

namespace QubitMatrix

variable {u v : QubitMatrix ℝ}

theorem phaseKey_eq_flatMap (u : QubitMatrix ℝ) :
    u.phaseKey = u.entries.flatMap fun z => (z * u.phaseReference).cell :=
  rfl

theorem norm_phaseReference (u : QubitMatrix ℝ) : ‖u.phaseReference.toComplex‖ = 1 := by
  unfold phaseReference
  split
  · rename_i z found
    have large := List.find?_some found
    have positive : ‖z.toComplex‖ ≠ 0 := by
      rw [decide_eq_true_eq, Amplitude.norm_eq] at large
      norm_num [phaseFloor] at large
      linarith
    simp [Amplitude.toComplex_divReal, Amplitude.norm_eq, positive]
  · simp

/-- Matrices with the same fingerprint are close when each is turned by its own reference. -/
theorem norm_turned_sub_le_of_phaseKey_eq (same : u.phaseKey = v.phaseKey) (row column : Bool) :
    ‖u.toMatrix row column * u.phaseReference.toComplex -
      v.toMatrix row column * v.phaseReference.toComplex‖ ≤ √2 * 1e-8 := by
  simp only [phaseKey_eq_flatMap, entries, List.flatMap_cons, List.flatMap_nil, List.append_nil]
    at same
  rcases List.append_inj same rfl with ⟨first, same⟩
  rcases List.append_inj same rfl with ⟨second, same⟩
  rcases List.append_inj same rfl with ⟨third, fourth⟩
  cases row <;> cases column
  · exact Amplitude.norm_sub_le_of_cell_eq first
  · exact Amplitude.norm_sub_le_of_cell_eq second
  · exact Amplitude.norm_sub_le_of_cell_eq third
  · exact Amplitude.norm_sub_le_of_cell_eq fourth

/-- Matrices with the same fingerprint agree up to a phase, to the resolution of the fingerprint. -/
theorem exists_norm_sub_le_of_phaseKey_eq (same : u.phaseKey = v.phaseKey) :
    ∃ factor : ℂ, ‖factor‖ = 1 ∧
      ∀ row column, ‖(u.toMatrix - factor • v.toMatrix) row column‖ ≤ √2 * 1e-8 := by
  have unit := u.norm_phaseReference
  have unit' := v.norm_phaseReference
  set reference := u.phaseReference.toComplex
  have cancels := mul_star_of_norm_eq_one unit
  -- Turn by the reference of the one and back by that of the other.
  refine ⟨v.phaseReference.toComplex * star reference, by simp [unit, unit'], ?_⟩
  intro row column
  have entry_eq : (u.toMatrix - (v.phaseReference.toComplex * star reference) • v.toMatrix)
      row column = (u.toMatrix row column * reference -
        v.toMatrix row column * v.phaseReference.toComplex) * star reference := by
    simp only [Matrix.sub_apply, Matrix.smul_apply, smul_eq_mul]
    linear_combination (-u.toMatrix row column) * cancels
  rw [entry_eq, norm_mul, norm_star, unit, mul_one]
  exact norm_turned_sub_le_of_phaseKey_eq same row column

theorem IsUnitary.norm_le_one (unitary : u.IsUnitary) {z : Amplitude ℝ} (listed : z ∈ u.entries) :
    ‖z.toComplex‖ ≤ 1 := by
  have bound := entry_norm_bound_of_unitary unitary
  simp only [entries, List.mem_cons, List.not_mem_nil, or_false] at listed
  rcases listed with rfl | rfl | rfl | rfl
  · exact bound false false
  · exact bound false true
  · exact bound true false
  · exact bound true true

theorem IsUnitary.abs_le_of_mem_phaseKey (unitary : u.IsUnitary) {number : ℤ}
    (listed : number ∈ u.phaseKey) : |number| ≤ 10 ^ 8 := by
  rw [phaseKey_eq_flatMap, List.mem_flatMap] at listed
  rcases listed with ⟨z, entry, listed⟩
  apply Amplitude.abs_le_of_mem_cell _ listed
  simpa [norm_phaseReference] using unitary.norm_le_one entry

/-- The matrix of a change of basis with real rows. -/
noncomputable def reflection (first second : ℝ) : QubitMatrix ℝ :=
  ⟨.ofReal first, .ofReal second, .ofReal second, -.ofReal first⟩

theorem phaseReference_of_positive {value : ℝ} (positive : 0 < value)
    (found : u.entries.find? (fun z => phaseFloor < z.norm) = some (.ofReal value)) :
    u.phaseReference = .one := by
  have nonzero : (value : ℂ) ≠ 0 := by exact_mod_cast positive.ne'
  rw [phaseReference, found]
  apply Amplitude.toComplex_injective
  simp [Amplitude.toComplex_divReal, Amplitude.norm_eq, abs_of_pos positive, nonzero]

theorem phaseKey_reflection {first second : ℝ} {count count' : ℤ}
    (reference_eq : (reflection first second).phaseReference = .one)
    (near : |first * 10 ^ 8 - count| < 1 / 2) (near' : |second * 10 ^ 8 - count'| < 1 / 2) :
    (reflection first second).phaseKey = [count, 0, count', 0, count', 0, -count, 0] := by
  have cell_ofReal {value : ℝ} {count : ℤ} (near : |value * 10 ^ 8 - count| < 1 / 2) :
      (Amplitude.ofReal value * .one).cell = [count, 0] := by
    have product : Amplitude.ofReal value * .one = .ofReal value := by
      apply Amplitude.toComplex_injective
      simp
    rw [product, Amplitude.cell, keyScale_eq, Amplitude.ofReal, Scalar.nearest_eq near,
      Scalar.nearest_eq (by norm_num : |(0.0 : ℝ) * 10 ^ 8 - (0 : ℤ)| < 1 / 2)]
  have opposite : -Amplitude.ofReal first = .ofReal (-first) := by
    apply Amplitude.toComplex_injective
    simp
  have near'' : |-first * 10 ^ 8 - (-count : ℤ)| < 1 / 2 := by
    rw [← abs_neg]
    convert near using 2
    push_cast
    ring
  rw [phaseKey_eq_flatMap, reference_eq]
  simp only [reflection, entries, opposite, List.flatMap_cons, List.flatMap_nil, cell_ofReal near,
    cell_ofReal near', cell_ofReal near'', List.cons_append, List.nil_append]

/--
The fingerprint of a unitary matrix is that of its phase class, in numbers far inside the machine's
range, and matrices with the same fingerprint are in the same class up to its resolution.
-/
theorem IsUnitary.phaseKey_phase_class (unitary : u.IsUnitary) :
    (∀ number ∈ u.phaseKey, |number| ≤ 10 ^ 8) ∧
    (∀ factor : ℂ, ‖factor‖ = 1 → (u.turned factor).phaseKey = u.phaseKey) ∧
    ∀ v : QubitMatrix ℝ, u.phaseKey = v.phaseKey → ∃ factor : ℂ, ‖factor‖ = 1 ∧
      ∀ row column, ‖(u.toMatrix - factor • v.toMatrix) row column‖ ≤ √2 * 1e-8 := by
  refine ⟨fun number listed => unitary.abs_le_of_mem_phaseKey listed, ?_, ?_⟩
  · intro factor unit
    exact unitary.phaseKey_eq ⟨factor, unit, toMatrix_turned factor u⟩
  · intro v same
    exact exists_norm_sub_le_of_phaseKey_eq same

/--
The size of the first entry is on different sides of the bound for references, and one of the
matrices is turned.
-/
theorem phaseKey_phase_class_around_floor :
    let below := reflection (4000000 / 4000000000001) (3999999999999 / 4000000000001)
    let above := reflection (3999998 / 3999996000002) (3999996000000 / 3999996000002)
    below.IsUnitary ∧ above.IsUnitary ∧
    below.entries.find? (fun z => phaseFloor < z.norm) = some below.b ∧
    above.entries.find? (fun z => phaseFloor < z.norm) = some above.a ∧
    below.phaseKey = (above.turned Complex.I).phaseKey ∧
    ∃ factor : ℂ, ‖factor‖ = 1 ∧ ∀ row column,
      ‖(below.toMatrix - factor • (above.turned Complex.I).toMatrix) row column‖ ≤ √2 * 1e-8 := by
  intro below above
  have unitary : below.IsUnitary := isUnitary_reflection (by norm_num)
  have unitary' : above.IsUnitary := isUnitary_reflection (by norm_num)
  have found : below.entries.find? (fun z => phaseFloor < z.norm) = some below.b := by
    simp only [below, reflection, entries]
    rw [List.find?_cons_of_neg, List.find?_cons_of_pos]
    · norm_num [Amplitude.norm_eq, phaseFloor]
    · norm_num [Amplitude.norm_eq, phaseFloor]
  have found' : above.entries.find? (fun z => phaseFloor < z.norm) = some above.a := by
    simp only [above, reflection, entries]
    rw [List.find?_cons_of_pos]
    norm_num [Amplitude.norm_eq, phaseFloor]
  have below_key : below.phaseKey = [100, 0, 10 ^ 8, 0, 10 ^ 8, 0, -100, 0] := by
    apply phaseKey_reflection
    · exact phaseReference_of_positive (by norm_num) found
    · norm_num
    · norm_num
  have above_key : above.phaseKey = [100, 0, 10 ^ 8, 0, 10 ^ 8, 0, -100, 0] := by
    apply phaseKey_reflection
    · exact phaseReference_of_positive (by norm_num) found'
    · norm_num
    · norm_num
  have same : below.phaseKey = (above.turned Complex.I).phaseKey := by
    rw [unitary'.phaseKey_phase_class.2.1 Complex.I Complex.norm_I, below_key, above_key]
  exact ⟨unitary, unitary', found, found', same, unitary.phaseKey_phase_class.2.2 _ same⟩

end QubitMatrix

end Anyonic
