import Mathlib
import Anyonic.Scalar.Double

/-!
# The parts of doubles

A double is a word of three fields, a sign, an exponent and a fraction, and it is unpacked to a
sign, a mantissa and an exponent, or to one of the values that are not finite.  Nothing is lost in
either direction: a double is packed again from its parts, and parts are read off again if the
mantissa is as long as it can be.  What only concerns the sign follows.
-/

namespace Anyonic.Double

open Float.Model Float.Model.UnpackedFloat

theorem unpackSign_packComponents {format : Format} {sign : Sign}
    {exponent : BitVec format.exponentBits} {fraction : BitVec format.mantissaBitsWithoutImplicit} :
    unpackSign (packComponents format sign exponent fraction) = sign.toBitVec := by
  ext i hi
  have : i = 0 := by omega
  subst this
  simp [unpackSign, packComponents, BitVec.getLsbD_append, BitVec.getElem_append]

theorem ofBitVec_toBitVec (sign : Sign) : Sign.ofBitVec sign.toBitVec = sign := by
  cases sign <;> rfl

theorem toBitVec_ofBitVec (bit : BitVec 1) : (Sign.ofBitVec bit).toBitVec = bit := by
  revert bit
  decide

/-- A word consists of its three fields. -/
theorem packComponents_unpack {format : Format} (bits : BitVec format.numBits) :
    packComponents format (Sign.ofBitVec (unpackSign bits)) (unpackExponent bits)
      (unpackMantissa bits) = bits := by
  simp only [packComponents, toBitVec_ofBitVec, unpackSign, unpackExponent, unpackMantissa,
    BitVec.extractLsb]
  have := format.hm
  have := format.he
  ext i hi
  grind

/-- What the fields of a word stand for. -/
def ofFields (sign : Sign) (exponent : BitVec 11) (fraction : BitVec 52) : UnpackedFloat :=
  if exponent = -1#11 then if fraction = 0#52 then .infinity sign else .notANumber
  else if exponent = 0#11 then
    if zero : fraction = 0#52 then .zero sign
    else .finite sign fraction.toNat (-1074) (by simpa [BitVec.toNat_pos, BitVec.pos_iff_ne_zero])
  else .finite sign (2 ^ 52 + fraction.toNat) (exponent.toNat - 1075) (by omega)

theorem unpack_packComponents (sign : Sign) (exponent : BitVec 11) (fraction : BitVec 52) :
    UnpackedFloat.unpack .binary64 (packComponents .binary64 sign exponent fraction) =
      ofFields sign exponent fraction := by
  have implicit : (1#1 ++ fraction).toNat = 2 ^ 52 + fraction.toNat := by
    rw [BitVec.toNat_append, ← Nat.shiftLeft_add_eq_or_of_lt fraction.isLt]
    simp [Nat.shiftLeft_eq]
  unfold UnpackedFloat.unpack ofFields
  simp only [unpackMantissa_packComponents, unpackExponent_packComponents,
    unpackSign_packComponents, ofBitVec_toBitVec, implicit]
  split
  · rfl
  · split
    · rename_i zero
      simp [zero]
      rfl
    · rfl

theorem pack_finite (sign : Sign) (mantissa : ℕ) (exponent : ℤ) (positive : 0 < mantissa) :
    UnpackedFloat.pack .binary64 (.finite sign mantissa exponent positive) =
      if 972 ≤ exponent then packComponents .binary64 sign (-1#11) 0#52
      else if mantissa.log2 = 52 then
        packComponents .binary64 sign (.ofNat 11 (exponent + 1075).toNat) (.ofNat 52 mantissa)
      else packComponents .binary64 sign 0#11 (.ofNat 52 mantissa) := by
  have bias : (exponent + Format.binary64.exponentBias +
      Format.binary64.mantissaBitsWithoutImplicit).toNat = (exponent + 1075).toNat :=
    congrArg Int.toNat (add_assoc exponent 1023 52)
  have bits : (2 : ℕ) ^ Format.binary64.exponentBits = 2048 := rfl
  have length : Format.binary64.mantissaBits = 53 := rfl
  rw [UnpackedFloat.pack]
  simp only [bias, bits, length]
  refine if_congr (by omega) rfl (if_congr (by omega) rfl rfl)

theorem pack_ofFields (sign : Sign) {exponent : BitVec 11} {fraction : BitVec 52}
    (defined : exponent = -1#11 → fraction = 0#52) :
    UnpackedFloat.pack .binary64 (ofFields sign exponent fraction) =
      packComponents .binary64 sign exponent fraction := by
  have small := fraction.isLt
  unfold ofFields
  split
  · rename_i special
    rw [if_pos (defined special), defined special, special]
    rfl
  · rename_i special
    split
    · rename_i lowest
      rw [lowest]
      split
      · rename_i zero
        rw [zero]
        rfl
      · rename_i nonzero
        have length : fraction.toNat.log2 ≠ 52 := by
          have positive : fraction.toNat ≠ 0 := by simpa [BitVec.toNat_eq] using nonzero
          exact ((Nat.log2_lt positive).2 small).ne
        rw [pack_finite, if_neg (by omega), if_neg length, BitVec.ofNat_toNat, BitVec.setWidth_eq]
    · have length : (2 ^ 52 + fraction.toNat).log2 = 52 :=
        (Nat.log2_eq_iff (by omega)).2 (by omega)
      have bound : exponent.toNat ≠ 2047 := fun same => special (BitVec.eq_of_toNat_eq same)
      have wide := exponent.isLt
      rw [pack_finite, if_neg (by omega), if_pos length]
      congr 1
      · rw [sub_add_cancel, Int.toNat_natCast, BitVec.ofNat_toNat, BitVec.setWidth_eq]
      · apply BitVec.eq_of_toNat_eq
        rw [BitVec.toNat_ofNat]
        omega

/-- The forms that numbers have when they are unpacked: the mantissa is as long as it can be. -/
def Canonical : UnpackedFloat → Prop
  | .finite _ mantissa exponent _ =>
      mantissa < 2 ^ 53 ∧ -1074 ≤ exponent ∧ exponent ≤ 971 ∧ (2 ^ 52 ≤ mantissa ∨ exponent = -1074)
  | _ => True

theorem canonical_ofFields (sign : Sign) (exponent : BitVec 11) (fraction : BitVec 52) :
    Canonical (ofFields sign exponent fraction) := by
  have small := fraction.isLt
  have wide := exponent.isLt
  unfold ofFields
  split
  · split <;> trivial
  · rename_i special
    split
    · split
      · trivial
      · exact ⟨by omega, le_rfl, by omega, .inr rfl⟩
    · rename_i lowest
      have above : exponent.toNat ≠ 2047 := fun same => special (BitVec.eq_of_toNat_eq same)
      have below : exponent.toNat ≠ 0 := fun same => lowest (BitVec.eq_of_toNat_eq same)
      exact ⟨by omega, by omega, by omega, .inl (by omega)⟩

theorem exists_eq_ofFields {unpacked : UnpackedFloat} (canonical : Canonical unpacked)
    (defined : unpacked ≠ .notANumber) : ∃ sign exponent fraction,
      unpacked = ofFields sign exponent fraction ∧ (exponent = -1#11 → fraction = 0#52) := by
  cases unpacked with
  | notANumber => exact absurd rfl defined
  | infinity sign => exact ⟨sign, -1#11, 0#52, rfl, fun _ => rfl⟩
  | zero sign => exact ⟨sign, 0#11, 0#52, rfl, fun _ => rfl⟩
  | finite sign mantissa exponent positive =>
      rcases canonical with ⟨short, low, high, normal⟩
      by_cases long : 2 ^ 52 ≤ mantissa
      · have biased : (BitVec.ofNat 11 (exponent + 1075).toNat).toNat = (exponent + 1075).toNat :=
          Nat.mod_eq_of_lt (by omega)
        have special : BitVec.ofNat 11 (exponent + 1075).toNat ≠ -1#11 := by
          intro same
          rw [same] at biased
          change 2047 = _ at biased
          omega
        have lowest : BitVec.ofNat 11 (exponent + 1075).toNat ≠ 0#11 := by
          intro same
          rw [same] at biased
          change 0 = _ at biased
          omega
        refine ⟨sign, .ofNat 11 (exponent + 1075).toNat, .ofNat 52 mantissa, ?_, ?_⟩
        · rw [ofFields, if_neg special, if_neg lowest]
          congr 1
          · rw [BitVec.toNat_ofNat]
            omega
          · rw [biased]
            omega
        · exact fun same => absurd same special
      · have fits : (BitVec.ofNat 52 mantissa).toNat = mantissa := Nat.mod_eq_of_lt (by omega)
        have nonzero : BitVec.ofNat 52 mantissa ≠ 0#52 := by
          intro same
          rw [same] at fits
          change 0 = _ at fits
          omega
        rcases normal.resolve_left long with rfl
        refine ⟨sign, 0#11, .ofNat 52 mantissa, ?_, fun impossible => absurd impossible (by decide)⟩
        rw [ofFields, if_neg (by decide), if_pos rfl, dif_neg nonzero]
        congr 1
        exact fits.symm

/-- The parts of finite doubles. -/
inductive IsNumber : UnpackedFloat → Prop where
  | zero (sign : Sign) : IsNumber (.zero sign)
  | finite {sign : Sign} {mantissa : ℕ} {exponent : ℤ} {positive : 0 < mantissa}
      (canonical : Canonical (.finite sign mantissa exponent positive)) :
      IsNumber (.finite sign mantissa exponent positive)

theorem Canonical.isNumber_or {unpacked : UnpackedFloat} (canonical : Canonical unpacked) :
    IsNumber unpacked ∨ (∃ sign, unpacked = .infinity sign) ∨ unpacked = .notANumber := by
  cases unpacked with
  | notANumber => exact .inr (.inr rfl)
  | infinity sign => exact .inr (.inl ⟨sign, rfl⟩)
  | zero sign => exact .inl (.zero sign)
  | finite => exact .inl (.finite canonical)

theorem IsNumber.abs {unpacked : UnpackedFloat} (isNumber : IsNumber unpacked) :
    IsNumber unpacked.abs := by
  cases isNumber with
  | zero sign => exact .zero _
  | finite canonical => exact .finite canonical

/-- The parts of a double. -/
def parts (number : Float) : UnpackedFloat := number.toModel.unpack

/-- The double with the given parts. -/
def ofParts (unpacked : UnpackedFloat) : Float := .ofModel (.pack unpacked)

theorem parts_ofParts {unpacked : UnpackedFloat} (canonical : Canonical unpacked) :
    parts (ofParts unpacked) = unpacked := by
  change UnpackedFloat.unpack .binary64 (UnpackedFloat.pack .binary64 unpacked) = unpacked
  by_cases undefined : unpacked = .notANumber
  · rw [undefined]
    exact unpack_packComponents .positive (-1#11) (1#52 <<< 51)
  · rcases exists_eq_ofFields canonical undefined with ⟨sign, exponent, fraction, rfl, defined⟩
    rw [pack_ofFields sign defined, unpack_packComponents]

/-- The bits of a double. -/
def word (number : Float) : BitVec Format.binary64.numBits := number.toBits.toBitVec

theorem ofParts_eq {unpacked : UnpackedFloat} {number : Float}
    (same : UnpackedFloat.pack .binary64 unpacked = word number) : ofParts unpacked = number := by
  rcases number with ⟨⟨⟨bits⟩, valid⟩⟩
  cases same
  rfl

theorem parts_eq (number : Float) :
    parts number = ofFields (Sign.ofBitVec (unpackSign (word number)))
      (unpackExponent (word number)) (unpackMantissa (word number)) := by
  rw [← unpack_packComponents, packComponents_unpack]
  rfl

theorem canonical_parts (number : Float) : Canonical (parts number) := by
  rw [parts_eq]
  exact canonical_ofFields _ _ _

theorem ofParts_parts (number : Float) : ofParts (parts number) = number := by
  apply ofParts_eq
  by_cases undefined : unpackExponent (word number) = -1#11 ∧ unpackMantissa (word number) ≠ 0#52
  · have canonical : word number = packedNaN .binary64 :=
      number.toModel.valid.eq_packedNaN undefined.1 undefined.2
    rw [parts_eq, ofFields, if_pos undefined.1, if_neg undefined.2]
    exact canonical.symm
  · rw [parts_eq, pack_ofFields, packComponents_unpack]
    intro special
    by_contra nonzero
    exact undefined ⟨special, nonzero⟩

theorem Canonical.neg {unpacked : UnpackedFloat} (canonical : Canonical unpacked) :
    Canonical unpacked.neg := by
  cases unpacked <;> exact canonical

theorem Canonical.abs {unpacked : UnpackedFloat} (canonical : Canonical unpacked) :
    Canonical unpacked.abs := by
  cases unpacked <;> exact canonical

theorem isNumber_parts {number : Float} (finite : number.isFinite) : IsNumber (parts number) := by
  change (parts number).isFinite at finite
  rcases (canonical_parts number).isNumber_or with isNumber | ⟨sign, unpacked⟩ | unpacked
  · exact isNumber
  · rw [unpacked] at finite
    cases finite
  · rw [unpacked] at finite
    cases finite

theorem isFinite_of_isNumber {number : Float} (isNumber : IsNumber (parts number)) :
    number.isFinite := by
  change (parts number).isFinite
  revert isNumber
  generalize parts number = unpacked
  rintro (_ | _) <;> rfl

theorem parts_neg (number : Float) : parts (-number) = (parts number).neg :=
  parts_ofParts (canonical_parts number).neg

theorem parts_abs (number : Float) : parts number.abs = (parts number).abs :=
  parts_ofParts (canonical_parts number).abs

protected theorem neg_neg (number : Float) : - -number = number := by
  have same : (parts number).neg.neg = parts number := by
    cases parts number with
    | notANumber => rfl
    | infinity sign => cases sign <;> rfl
    | zero sign => cases sign <;> rfl
    | finite sign mantissa exponent positive => cases sign <;> rfl
  change ofParts (parts (-number)).neg = number
  rw [parts_neg, same, ofParts_parts]

protected theorem isFinite_neg {number : Float} (finite : number.isFinite) :
    (-number).isFinite := by
  change (parts number).isFinite at finite
  change (parts (-number)).isFinite
  rw [parts_neg]
  cases unpacked : parts number <;> rw [unpacked] at finite <;> first | rfl | cases finite

theorem abs_ofFields (sign : Sign) (exponent : BitVec 11) (fraction : BitVec 52) :
    (ofFields sign exponent fraction).abs = ofFields .positive exponent fraction := by
  unfold ofFields
  split
  · split <;> rfl
  · split
    · split <;> rfl
    · rfl

/-- Packing leaves the sign alone, also when it overflows. -/
theorem exists_pack_abs_eq {unpacked : UnpackedFloat} (defined : unpacked ≠ .notANumber) :
    ∃ sign exponent fraction, (exponent = -1#11 → fraction = 0#52) ∧
      UnpackedFloat.pack .binary64 unpacked = packComponents .binary64 sign exponent fraction ∧
      UnpackedFloat.pack .binary64 unpacked.abs =
        packComponents .binary64 .positive exponent fraction := by
  cases unpacked with
  | notANumber => exact absurd rfl defined
  | infinity sign => exact ⟨sign, -1#11, 0#52, fun _ => rfl, rfl, rfl⟩
  | zero sign => exact ⟨sign, 0#11, 0#52, fun _ => rfl, rfl, rfl⟩
  | finite sign mantissa exponent positive =>
      rw [UnpackedFloat.abs, pack_finite, pack_finite]
      split
      · exact ⟨sign, _, _, fun _ => rfl, rfl, rfl⟩
      · split
        · refine ⟨sign, _, _, ?_, rfl, rfl⟩
          intro special
          have biased := congrArg BitVec.toNat special
          rw [BitVec.toNat_ofNat, Nat.mod_eq_of_lt (by omega)] at biased
          change _ = 2047 at biased
          omega
        · exact ⟨sign, _, _, fun impossible => absurd impossible (by decide), rfl, rfl⟩

theorem abs_ofParts (unpacked : UnpackedFloat) : (ofParts unpacked).abs = ofParts unpacked.abs := by
  by_cases undefined : unpacked = .notANumber
  · have canonical : Canonical unpacked := by
      rw [undefined]
      trivial
    change ofParts (parts (ofParts unpacked)).abs = _
    rw [parts_ofParts canonical]
  · rcases exists_pack_abs_eq undefined with ⟨sign, exponent, fraction, defined, packed, packed'⟩
    have unpacked_eq : parts (ofParts unpacked) = ofFields sign exponent fraction := by
      change UnpackedFloat.unpack .binary64 (UnpackedFloat.pack .binary64 unpacked) = _
      rw [packed, unpack_packComponents]
    change ofParts (parts (ofParts unpacked)).abs = _
    apply ofParts_eq
    rw [unpacked_eq, abs_ofFields, pack_ofFields .positive defined]
    exact packed'.symm

end Anyonic.Double
