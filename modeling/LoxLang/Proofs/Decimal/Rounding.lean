/-
Rounding depends on the value alone.

The whole numbers with which `quotientBits` computes stand for a quotient, and what it gives is
`nearestBits` of that quotient: the place of the last digit kept is found from the binary
logarithm of the quotient, and what remains is rounded to the nearest whole number.  So the double
nearest to a decimal number does not depend on how its digits and its exponent are chosen:

* `Decimal.bits_eq_nearestBits` — the nearest double, from the value of a decimal number;
* `Decimal.bits_congr` — two decimal numbers of one value have the same nearest double.
-/
import LoxLang.Decimal.Nearest
import Mathlib.Algebra.Order.Field.Power
import Mathlib.Data.Int.Log
import Mathlib.Data.Rat.Floor
import Mathlib.Tactic.FieldSimp
import Mathlib.Tactic.Positivity
import Mathlib.Tactic.Ring

namespace LoxLang

/-! ### Whole numbers -/

section RoundHalfEven

variable {a b c d num den n : ℕ}

theorem roundHalfEven_mul_right (num den : ℕ) (hc : 0 < c) :
    roundHalfEven (num * c) (den * c) = roundHalfEven num den := by
  have hleft : 2 * (num % den * c) < den * c ↔ 2 * (num % den) < den := by
    rw [← mul_assoc, Nat.mul_lt_mul_right hc]
  have hright : den * c < 2 * (num % den * c) ↔ den < 2 * (num % den) := by
    rw [← mul_assoc, Nat.mul_lt_mul_right hc]
  simp only [roundHalfEven, Nat.mul_div_mul_right _ _ hc, Nat.mul_mod_mul_right, hleft, hright]

/-- Two equal quotients are rounded to the same number. -/
theorem roundHalfEven_congr (hb : 0 < b) (hd : 0 < d) (h : a * d = c * b) :
    roundHalfEven a b = roundHalfEven c d := by
  rw [← roundHalfEven_mul_right a b hd, h, mul_comm b d, roundHalfEven_mul_right c d hb]

theorem le_roundHalfEven (hden : 0 < den) (h : n * den ≤ num) : n ≤ roundHalfEven num den := by
  have hfloor : n ≤ num / den := (Nat.le_div_iff_mul_le hden).mpr h
  dsimp only [roundHalfEven]
  split
  · exact hfloor
  split
  · omega
  · omega

theorem roundHalfEven_of_lt (h : 2 * num < den) : roundHalfEven num den = 0 := by
  have hlt : num < den := by omega
  rw [roundHalfEven, Nat.mod_eq_of_lt hlt, Nat.div_eq_of_lt hlt]
  exact if_pos h

theorem roundHalfEven_one (num : ℕ) : roundHalfEven num 1 = num := by
  simp [roundHalfEven, Nat.mod_one]

end RoundHalfEven

/-! ### Quotients -/

/-- The nearest whole number, a half going to the even one. -/
def nearestEven (v : ℚ) : ℕ := roundHalfEven v.num.natAbs v.den

/-- The exponent of the last binary digit that is kept of a positive number. -/
def lastPlace (v : ℚ) : ℤ := max (-1074) (Int.log 2 v - 52)

/-- The bit pattern of the double nearest to a positive number. -/
def nearestBits (v : ℚ) : ℕ :=
  min infinityBits
    ((lastPlace v + 1074).toNat * hiddenBit + nearestEven (v / 2 ^ lastPlace v))

theorem zpow_mul_pow_toNat {b : ℚ} (hb : b ≠ 0) (e : ℤ) :
    b ^ e * b ^ (-e).toNat = b ^ e.toNat := by
  rw [← zpow_natCast, ← zpow_natCast, ← zpow_add₀ hb]
  congr 1
  omega

section Quotients

variable {num den n : ℕ} {v : ℚ}

theorem nearestEven_div (num : ℕ) (hden : 0 < den) :
    nearestEven (num / den : ℚ) = roundHalfEven num den := by
  apply roundHalfEven_congr (Rat.den_pos _) hden
  have hnum : 0 ≤ (num / den : ℚ).num := Rat.num_nonneg.mpr (by positivity)
  have hden' : (den : ℚ) ≠ 0 := by positivity
  have hv := Rat.num_div_den (num / den : ℚ)
  rw [div_eq_div_iff (by positivity) hden'] at hv
  zify
  rw [abs_of_nonneg hnum]
  exact_mod_cast hv

theorem le_nearestEven (h : (n : ℚ) ≤ v) : n ≤ nearestEven v := by
  have hnum : 0 ≤ v.num := Rat.num_nonneg.mpr ((Nat.cast_nonneg n).trans h)
  apply le_roundHalfEven (Rat.den_pos _)
  rw [← Rat.num_div_den v, le_div_iff₀ (by positivity)] at h
  zify
  rw [abs_of_nonneg hnum]
  exact_mod_cast h

theorem nearestEven_of_lt (hv : 0 ≤ v) (h : 2 * v < 1) : nearestEven v = 0 := by
  have hnum : 0 ≤ v.num := Rat.num_nonneg.mpr hv
  apply roundHalfEven_of_lt
  rw [← Rat.num_div_den v, mul_div_assoc', div_lt_one (by positivity)] at h
  zify
  rw [abs_of_nonneg hnum]
  exact_mod_cast h

theorem nearestEven_natCast (n : ℕ) : nearestEven n = n := by
  have h := nearestEven_div n Nat.one_pos
  rwa [Nat.cast_one, div_one, roundHalfEven_one] at h

/-- A quotient is compared with a power of two in whole numbers. -/
theorem div_lt_two_zpow_iff (num : ℕ) (hden : 0 < den) (e : ℤ) :
    (num / den : ℚ) < 2 ^ e ↔ num * 2 ^ (-e).toNat < den * 2 ^ e.toNat := by
  have hpow : (0 : ℚ) < 2 ^ (-e).toNat := by positivity
  rw [div_lt_iff₀ (by positivity), ← mul_lt_mul_iff_left₀ hpow, mul_right_comm,
    zpow_mul_pow_toNat two_ne_zero]
  norm_cast
  rw [mul_comm den]

/-- The binary logarithms of a numerator and of a denominator give the one of the quotient, up to
one digit, which a comparison finds. -/
theorem lastBinaryPlace_eq (hnum : 0 < num) (hden : 0 < den) :
    lastBinaryPlace num den = lastPlace (num / den) := by
  set v : ℚ := num / den with hv
  set e : ℤ := (num.log2 : ℤ) - den.log2 - 52 with he
  have hpos : 0 < v := by positivity
  have hlower : (2 : ℚ) ^ (e + 51) ≤ v := by
    rw [hv, le_div_iff₀ (by positivity)]
    calc (2 : ℚ) ^ (e + 51) * den ≤ 2 ^ (e + 51) * 2 ^ (den.log2 + 1) := by
          gcongr
          exact_mod_cast Nat.lt_log2_self.le
      _ = 2 ^ num.log2 := by
          rw [← zpow_natCast, ← zpow_natCast, ← zpow_add₀ two_ne_zero]
          congr 1
          omega
      _ ≤ num := by exact_mod_cast Nat.log2_self_le hnum.ne'
  have hupper : v < (2 : ℚ) ^ (e + 53) := by
    rw [hv, div_lt_iff₀ (by positivity)]
    calc (num : ℚ) < 2 ^ (num.log2 + 1) := by exact_mod_cast Nat.lt_log2_self
      _ = 2 ^ (e + 53) * 2 ^ den.log2 := by
          rw [← zpow_natCast, ← zpow_natCast, ← zpow_add₀ two_ne_zero]
          congr 1
          omega
      _ ≤ 2 ^ (e + 53) * den := by
          gcongr
          exact_mod_cast Nat.log2_self_le hden.ne'
  have hlog : e + 51 ≤ Int.log 2 v := (Int.zpow_le_iff_le_log one_lt_two hpos).mp hlower
  have hlog' : Int.log 2 v < e + 53 := (Int.lt_zpow_iff_log_lt one_lt_two hpos).mp hupper
  have hshort : num * Nat.pow 2 (-e).toNat < hiddenBit * (den * Nat.pow 2 e.toNat) ↔
      Int.log 2 v < e + 52 := by
    have hscaled : v < 2 ^ (e + 52) ↔ (num / (hiddenBit * den : ℕ) : ℚ) < 2 ^ e := by
      rw [zpow_add₀ two_ne_zero, ← div_lt_iff₀ (by positivity), hv, div_div, Nat.cast_mul,
        mul_comm (den : ℚ)]
      norm_num [hiddenBit]
    rw [← Int.lt_zpow_iff_log_lt one_lt_two hpos, Nat.cast_ofNat, hscaled,
      div_lt_two_zpow_iff num (by rw [hiddenBit]; omega), mul_assoc]
    rfl
  rw [lastBinaryPlace, lastPlace]
  simp only [← he, hshort]
  split
  · omega
  · omega

theorem quotientBits_eq (hnum : 0 < num) (hden : 0 < den) :
    quotientBits num den = nearestBits (num / den) := by
  have hquotient (q : ℤ) : (num / den / 2 ^ q : ℚ) =
      (num * 2 ^ (-q).toNat : ℕ) / (den * 2 ^ q.toNat : ℕ) := by
    push_cast
    rw [← zpow_mul_pow_toNat two_ne_zero q]
    field_simp
  rw [quotientBits, nearestBits, lastBinaryPlace_eq hnum hden, hquotient,
    nearestEven_div _ (by positivity)]
  rfl

/-- From a certain size on a number is rounded to infinity. -/
theorem nearestBits_of_large (h : 2 ^ (1024 : ℤ) ≤ v) : nearestBits v = infinityBits := by
  have hpos : 0 < v := lt_of_lt_of_le (by positivity) h
  have hlog : 1024 ≤ Int.log 2 v := (Int.zpow_le_iff_le_log one_lt_two hpos).mp h
  have hplace : lastPlace v = Int.log 2 v - 52 := max_eq_right (by omega)
  have hdigits : hiddenBit ≤ nearestEven (v / 2 ^ lastPlace v) := by
    apply le_nearestEven
    rw [le_div_iff₀ (by positivity), hplace]
    calc (hiddenBit : ℚ) * 2 ^ (Int.log 2 v - 52) = 2 ^ Int.log 2 v := by
          rw [zpow_sub₀ two_ne_zero, hiddenBit]
          norm_num
          field_simp
      _ ≤ v := Int.zpow_log_le_self one_lt_two hpos
  apply min_eq_left
  calc infinityBits = 2046 * hiddenBit + hiddenBit := by decide
    _ ≤ _ := Nat.add_le_add (Nat.mul_le_mul_right _ (by omega)) hdigits

/-- Below half of the smallest double a number is rounded to zero. -/
theorem nearestBits_of_small (hpos : 0 < v) (h : v < 2 ^ (-1075 : ℤ)) : nearestBits v = 0 := by
  have hlog : Int.log 2 v < -1075 := (Int.lt_zpow_iff_log_lt one_lt_two hpos).mp h
  have hplace : lastPlace v = -1074 := max_eq_left (by omega)
  have hdigits : nearestEven (v / 2 ^ (-1074 : ℤ)) = 0 := by
    apply nearestEven_of_lt (by positivity)
    rw [mul_div_assoc', div_lt_one (by positivity)]
    calc 2 * v < 2 * 2 ^ (-1075 : ℤ) := by gcongr
      _ = 2 ^ (-1074 : ℤ) := by rw [← zpow_one_add₀ two_ne_zero]; rfl
  rw [nearestBits, hplace, hdigits]
  rfl

end Quotients

/-! ### Decimal numbers -/

namespace Decimal

/-- The number that a decimal number is. -/
def value (d : Decimal) : ℚ := d.digits * 10 ^ d.exponent

variable {d d' : Decimal}

theorem value_pos (h : d.digits ≠ 0) : 0 < d.value := by
  have : 0 < d.digits := Nat.pos_of_ne_zero h
  rw [value]
  positivity

theorem value_eq_zero_iff : d.value = 0 ↔ d.digits = 0 := by
  rw [value, mul_eq_zero, Nat.cast_eq_zero, or_iff_left (by positivity)]

theorem value_eq_div (d : Decimal) : d.value =
    (d.digits * 10 ^ d.exponent.toNat : ℕ) / (10 ^ (-d.exponent).toNat : ℕ) := by
  rw [value, eq_div_iff (by positivity)]
  push_cast
  rw [mul_assoc, zpow_mul_pow_toNat (by norm_num)]

theorem two_pow_le_ten_pow (n : ℕ) : (2 : ℚ) ^ (3 * n : ℤ) ≤ 10 ^ (n : ℤ) := by
  rw [zpow_mul, zpow_natCast, zpow_natCast]
  gcongr
  norm_num

/-- The bounds that keep the powers of ten small leave out only numbers that are rounded to
infinity or to zero. -/
theorem bits_eq_nearestBits (h : d.digits ≠ 0) : d.bits = nearestBits d.value := by
  have hdigits : 1 ≤ d.digits := Nat.one_le_iff_ne_zero.mpr h
  rw [bits, if_neg h]
  split
  · rename_i hlarge
    refine (nearestBits_of_large ?_).symm
    calc (2 : ℚ) ^ (1024 : ℤ) ≤ 2 ^ (3 * (400 : ℕ) : ℤ) :=
          zpow_le_zpow_right₀ one_le_two (by norm_num)
      _ ≤ 1 * 10 ^ (400 : ℤ) := by
          rw [one_mul]
          exact two_pow_le_ten_pow 400
      _ ≤ d.digits * 10 ^ d.exponent := by
          gcongr
          · exact_mod_cast hdigits
          · norm_num
  split
  · rename_i hsmall
    refine (nearestBits_of_small (value_pos h) ?_).symm
    have hten : (10 : ℚ) ^ (-(d.digits.log2 + 400 : ℤ)) ≤ 2 ^ (-(3 * (d.digits.log2 + 400)) : ℤ) := by
      rw [zpow_neg, zpow_neg]
      gcongr
      exact_mod_cast two_pow_le_ten_pow (d.digits.log2 + 400)
    calc (d.digits : ℚ) * 10 ^ d.exponent
        ≤ 2 ^ (d.digits.log2 + 1 : ℤ) * 10 ^ (-(d.digits.log2 + 400 : ℤ)) := by
          gcongr
          · exact_mod_cast Nat.lt_log2_self.le
          · norm_num
      _ ≤ 2 ^ (d.digits.log2 + 1 : ℤ) * 2 ^ (-(3 * (d.digits.log2 + 400)) : ℤ) := by gcongr
      _ = 2 ^ (-2 * d.digits.log2 - 1199 : ℤ) := by
          rw [← zpow_add₀ two_ne_zero]
          ring_nf
      _ < 2 ^ (-1075 : ℤ) := zpow_lt_zpow_right₀ one_lt_two (by omega)
  · rw [value_eq_div]
    have hten (n : ℕ) : 0 < 10 ^ n := Nat.pow_pos (by decide)
    exact quotientBits_eq (Nat.mul_pos hdigits (hten _)) (hten _)

/-- The double nearest to a decimal number depends only on the value. -/
theorem bits_congr (h : d.value = d'.value) : d.bits = d'.bits := by
  by_cases hd : d.digits = 0
  · have hd' : d'.digits = 0 := by rwa [← value_eq_zero_iff, ← h, value_eq_zero_iff]
    rw [bits, bits, if_pos hd, if_pos hd']
  · have hd' : d'.digits ≠ 0 := by rwa [ne_eq, ← value_eq_zero_iff, ← h, value_eq_zero_iff]
    rw [bits_eq_nearestBits hd, bits_eq_nearestBits hd', h]

end Decimal

end LoxLang
