/-
Doubles and their bit patterns.

A bit pattern consists of a sign, an exponent and a mantissa, and as a number it is the sum of
these (`toNat_packComponents`).  The magnitude of a double is its pattern without the sign, and a
double is known from its magnitude and its sign:

* `ofBits_magnitude` — a double without a sign is found again from its magnitude;
* `neg_ofBits_magnitude` — one with a sign is the opposite of what is found;
* `abs_eq_ofBits_magnitude` — the absolute value is what is found in both cases;
* `eq_notANumber` — there is one double that is no number.
-/
import LoxLang.Decimal.Notation
import Mathlib

namespace LoxLang

open Float.Model.UnpackedFloat

/-! ### The components of a bit pattern -/

section Components

variable {sign : Sign} {exponent : BitVec 11} {mantissa : BitVec 52}

/-- The pattern as a number. -/
theorem toNat_packComponents :
    (packComponents .binary64 sign exponent mantissa).toNat =
      sign.toBitVec.toNat * signBit + exponent.toNat * hiddenBit + mantissa.toNat := by
  rw [packComponents, BitVec.toNat_append, BitVec.toNat_append,
    ← Nat.shiftLeft_add_eq_or_of_lt mantissa.isLt, ← Nat.shiftLeft_add_eq_or_of_lt exponent.isLt]
  simp only [Nat.shiftLeft_eq, signBit, hiddenBit]
  omega

/-- The pattern of a number, as opposed to that of no number. -/
theorem valid_packComponents (h : exponent = -1#11 → mantissa = 0#52) :
    Float.Model.Format.binary64.Valid (packComponents .binary64 sign exponent mantissa) where
  eq_packedNaN hexponent hmantissa := by
    rw [unpackExponent_packComponents] at hexponent
    rw [unpackMantissa_packComponents] at hmantissa
    exact absurd (h hexponent) hmantissa

/-- The sign of a number is the first component of its pattern alone. -/
theorem neg_unpack (h : exponent = -1#11 → mantissa = 0#52) :
    (unpack .binary64 (packComponents .binary64 sign exponent mantissa)).neg =
      unpack .binary64 (packComponents .binary64 (-sign) exponent mantissa) := by
  simp only [unpack, unpackMantissa_packComponents, unpackExponent_packComponents,
    unpackSign_packComponents, Sign.ofBitVec_toBitVec]
  split
  · rename_i hlast
    rw [if_pos (h hlast), if_pos (h hlast)]
    rfl
  · split
    · split
      · rfl
      · rfl
    · rfl

/-- The absolute value has the first component of a positive number. -/
theorem abs_unpack (h : exponent = -1#11 → mantissa = 0#52) :
    (unpack .binary64 (packComponents .binary64 sign exponent mantissa)).abs =
      unpack .binary64 (packComponents .binary64 .positive exponent mantissa) := by
  simp only [unpack, unpackMantissa_packComponents, unpackExponent_packComponents,
    unpackSign_packComponents, Sign.ofBitVec_toBitVec]
  split
  · rename_i hlast
    rw [if_pos (h hlast), if_pos (h hlast)]
    rfl
  · split
    · split
      · rfl
      · rfl
    · rfl

end Components

/-! ### Doubles -/

section Doubles

variable {x y : Float} {sign : Sign} {exponent : BitVec 11} {mantissa : BitVec 52}

theorem eq_of_toBitVec (h : x.toBits.toBitVec = y.toBits.toBitVec) : x = y :=
  Float.toBits_inj.mp (UInt64.toBitVec_inj.mp h)

theorem toBitVec_ofBits (b : UInt64) :
    (Float.ofBits b).toBits.toBitVec = pack .binary64 (unpack .binary64 b.toBitVec) := rfl

theorem toBitVec_neg (x : Float) :
    (-x).toBits.toBitVec = pack .binary64 (unpack .binary64 x.toBits.toBitVec).neg := rfl

theorem toBitVec_abs (x : Float) :
    x.abs.toBits.toBitVec = pack .binary64 (unpack .binary64 x.toBits.toBitVec).abs := rfl

theorem exists_components (x : Float) :
    ∃ sign exponent mantissa, x.toBits.toBitVec = packComponents .binary64 sign exponent mantissa :=
  ⟨_, _, _, (@packComponents_unpackSign_unpackExponent_unpackMantissa .binary64 _).symm⟩

theorem magnitude_of_components
    (h : x.toBits.toBitVec = packComponents .binary64 sign exponent mantissa) :
    magnitude x = exponent.toNat * hiddenBit + mantissa.toNat := by
  have hexponent := exponent.isLt
  have hmantissa := mantissa.isLt
  have hpattern : x.toBits.toNat = _ := congrArg BitVec.toNat h
  rw [magnitude, hpattern, toNat_packComponents]
  simp only [signBit, hiddenBit]
  omega

theorem isNegative_of_components
    (h : x.toBits.toBitVec = packComponents .binary64 sign exponent mantissa) :
    isNegative x = true ↔ sign = .negative := by
  have hexponent := exponent.isLt
  have hmantissa := mantissa.isLt
  have hpattern : x.toBits.toNat = _ := congrArg BitVec.toNat h
  rw [isNegative, hpattern, toNat_packComponents, decide_eq_true_iff]
  simp only [signBit, hiddenBit]
  cases sign with
  | negative =>
    simp [Sign.toBitVec]
    omega
  | positive =>
    simp [Sign.toBitVec]
    omega

/-- What is no number has the largest exponent and some mantissa. -/
theorem infinityBits_lt_iff
    (h : x.toBits.toBitVec = packComponents .binary64 sign exponent mantissa) :
    infinityBits < magnitude x ↔ exponent = -1#11 ∧ mantissa ≠ 0#52 := by
  have hexponent := exponent.isLt
  have hmantissa := mantissa.isLt
  rw [magnitude_of_components h, ← BitVec.toNat_inj, ne_eq, ← BitVec.toNat_inj]
  simp only [infinityBits, hiddenBit]
  simp
  omega

/-- There is one double that is no number. -/
theorem eq_notANumber (hx : infinityBits < magnitude x) : x = 0.0 / 0.0 := by
  have hpattern : x.toBits.toBitVec = packedNaN .binary64 := by
    have h := @packComponents_unpackSign_unpackExponent_unpackMantissa .binary64 x.toBits.toBitVec
    obtain ⟨hexponent, hmantissa⟩ := (infinityBits_lt_iff h.symm).mp hx
    exact x.toModel.valid.eq_packedNaN hexponent hmantissa
  apply eq_of_toBitVec
  rw [hpattern]
  decide +kernel

/-- A double that has no sign is found again from its magnitude. -/
theorem ofBits_magnitude (hpositive : isNegative x = false) :
    Float.ofBits (UInt64.ofNat (magnitude x)) = x := by
  have hlt : x.toBits.toNat < signBit := by simpa [isNegative] using hpositive
  rw [magnitude, Nat.mod_eq_of_lt hlt, UInt64.ofNat_toNat, Float.ofBits_toBits]

/-- The magnitude of a number is its pattern without the sign. -/
theorem magnitude_components (hx : magnitude x ≤ infinityBits)
    (h : x.toBits.toBitVec = packComponents .binary64 sign exponent mantissa) :
    (exponent = -1#11 → mantissa = 0#52) ∧ (UInt64.ofNat (magnitude x)).toBitVec =
      packComponents .binary64 .positive exponent mantissa := by
  constructor
  · intro hexponent
    by_contra hmantissa
    exact absurd ((infinityBits_lt_iff h).mpr ⟨hexponent, hmantissa⟩) (by omega)
  · have hlt : magnitude x < 2 ^ 64 := by
      rw [infinityBits] at hx
      omega
    apply BitVec.eq_of_toNat_eq
    calc (UInt64.ofNat (magnitude x)).toBitVec.toNat = magnitude x := Nat.mod_eq_of_lt hlt
      _ = exponent.toNat * hiddenBit + mantissa.toNat := magnitude_of_components h
      _ = _ := by rw [toNat_packComponents, Sign.toBitVec]; simp

/-- A double that is a number and has a sign is the opposite of its magnitude. -/
theorem neg_ofBits_magnitude (hx : magnitude x ≤ infinityBits) (hnegative : isNegative x = true) :
    -Float.ofBits (UInt64.ofNat (magnitude x)) = x := by
  obtain ⟨sign, exponent, mantissa, h⟩ := exists_components x
  obtain rfl := (isNegative_of_components h).mp hnegative
  obtain ⟨hnumber, hpattern⟩ := magnitude_components hx h
  apply eq_of_toBitVec
  rw [toBitVec_neg, toBitVec_ofBits, hpattern, pack_unpack_of_valid (valid_packComponents hnumber),
    neg_unpack hnumber, h]
  exact pack_unpack_of_valid (valid_packComponents hnumber)

/-- The absolute value of a double that is a number has its magnitude and no sign. -/
theorem abs_eq_ofBits_magnitude (hx : magnitude x ≤ infinityBits) :
    x.abs = Float.ofBits (UInt64.ofNat (magnitude x)) := by
  obtain ⟨sign, exponent, mantissa, h⟩ := exists_components x
  obtain ⟨hnumber, hpattern⟩ := magnitude_components hx h
  apply eq_of_toBitVec
  rw [toBitVec_abs, toBitVec_ofBits, hpattern, h, abs_unpack hnumber]

/-- A double that is a number is known from its sign and its magnitude. -/
theorem eq_of_magnitude (hx : magnitude x ≤ infinityBits) (hy : magnitude y ≤ infinityBits)
    (hsign : isNegative x = isNegative y) (h : magnitude x = magnitude y) : x = y := by
  cases hnegative : isNegative x with
  | true => rw [← neg_ofBits_magnitude hx hnegative, h, neg_ofBits_magnitude hy (hsign ▸ hnegative)]
  | false => rw [← ofBits_magnitude hnegative, h, ofBits_magnitude (hsign ▸ hnegative)]

end Doubles

end LoxLang
