/-
The shortest digits are read back.

A finite double is `mantissa b * 2 ^ binaryPlace b`, where `b` is its bit pattern, and this is what
`Decimal.exact` is in decimal digits.  Rounding such a number gives the pattern back
(`nearestBits_mantissa`), so whichever digits `Decimal.shortest` settles for, the double nearest to
them is the one that they were found for: `Decimal.bits_shortest`.
-/
import LoxLang.Decimal.Shortest
import LoxLang.Proofs.Decimal.Rounding
import Mathlib.Data.List.TakeWhile

namespace LoxLang

/-! ### The value of a bit pattern -/

/-- The binary digits of a finite double as a whole number. -/
def mantissa (b : ℕ) : ℕ :=
  if b / hiddenBit = 0 then b % hiddenBit else hiddenBit + b % hiddenBit

/-- The exponent of the last binary digit of a finite double. -/
def binaryPlace (b : ℕ) : ℤ := (max (b / hiddenBit) 1 : ℕ) - 1075

section Patterns

variable {b : ℕ}

theorem mantissa_lt (b : ℕ) : mantissa b < 2 ^ 53 := by
  have hmod : b % hiddenBit < hiddenBit := Nat.mod_lt _ (by decide)
  rw [mantissa]
  split
  · exact hmod.trans (by decide)
  · exact Nat.add_lt_add_left hmod hiddenBit

theorem le_mantissa (hfield : b / hiddenBit ≠ 0) : 2 ^ 52 ≤ mantissa b := by
  rw [mantissa, if_neg hfield]
  exact Nat.le_add_right ..

theorem neg_le_binaryPlace (b : ℕ) : -1074 ≤ binaryPlace b := by
  rw [binaryPlace]
  omega

theorem pattern_eq (b : ℕ) : (binaryPlace b + 1074).toNat * hiddenBit + mantissa b = b := by
  have hdiv := Nat.div_add_mod' b hiddenBit
  rw [binaryPlace, mantissa]
  split
  · rename_i hfield
    rw [hfield] at hdiv ⊢
    simpa using hdiv
  · rename_i hfield
    generalize b / hiddenBit = field at hfield hdiv ⊢
    have hplace : (((max field 1 : ℕ) : ℤ) - 1075 + 1074).toNat = field - 1 := by omega
    rw [hplace, ← add_assoc, ← Nat.succ_mul]
    rwa [Nat.succ_eq_add_one, Nat.sub_add_cancel (by omega)]

/-- A mantissa ends where the digits that are kept of its number end. -/
theorem lastPlace_mantissa (hb : mantissa b ≠ 0) :
    lastPlace (mantissa b * 2 ^ binaryPlace b) = binaryPlace b := by
  have hdigits : 0 < mantissa b := Nat.pos_of_ne_zero hb
  have hpos : (0 : ℚ) < mantissa b * 2 ^ binaryPlace b := by positivity
  have hplace := neg_le_binaryPlace b
  have hupper : Int.log 2 (mantissa b * 2 ^ binaryPlace b : ℚ) < binaryPlace b + 53 := by
    rw [← Int.lt_zpow_iff_log_lt one_lt_two hpos, Nat.cast_ofNat, zpow_add₀ two_ne_zero, mul_comm]
    gcongr
    exact_mod_cast mantissa_lt b
  rw [lastPlace]
  by_cases hfield : b / hiddenBit = 0
  · have hplace : binaryPlace b = -1074 := by rw [binaryPlace, hfield]; rfl
    omega
  · have hlower : binaryPlace b + 52 ≤ Int.log 2 (mantissa b * 2 ^ binaryPlace b : ℚ) := by
      rw [← Int.zpow_le_iff_le_log one_lt_two hpos, Nat.cast_ofNat, zpow_add₀ two_ne_zero, mul_comm]
      gcongr
      exact_mod_cast le_mantissa hfield
    omega

/-- Rounding the value of a finite double gives its pattern. -/
theorem nearestBits_mantissa (hb : b < infinityBits) (hdigits : mantissa b ≠ 0) :
    nearestBits (mantissa b * 2 ^ binaryPlace b) = b := by
  rw [nearestBits, lastPlace_mantissa hdigits, mul_div_assoc, div_self (by positivity), mul_one,
    nearestEven_natCast, pattern_eq]
  exact min_eq_right hb.le

end Patterns

namespace Decimal

variable {b : ℕ} {d : Decimal}

theorem value_exact (b : ℕ) : (exact b).value = mantissa b * 2 ^ binaryPlace b := by
  show (if 0 ≤ binaryPlace b then
      (⟨mantissa b * Nat.pow 2 (binaryPlace b).toNat, 0⟩ : Decimal)
    else ⟨mantissa b * Nat.pow 5 (-binaryPlace b).toNat, binaryPlace b⟩).value = _
  split
  · rename_i hplace
    obtain ⟨n, hn⟩ := Int.eq_ofNat_of_zero_le hplace
    simp [value, hn]
  · rename_i hplace
    have hten : (10 : ℚ) ^ binaryPlace b * 5 ^ (-binaryPlace b).toNat = 2 ^ binaryPlace b := by
      rw [show (10 : ℚ) = 2 * 5 by norm_num, mul_zpow, mul_assoc,
        zpow_mul_pow_toNat (by norm_num), Int.toNat_of_nonpos (by omega), pow_zero, mul_one]
    rw [value]
    simp only [Nat.pow_eq, Nat.cast_mul, Nat.cast_pow, Nat.cast_ofNat]
    rw [mul_assoc, mul_comm (5 ^ _ : ℚ), hten]

/-- The exact digits of a finite double are read back. -/
theorem bits_exact (hb : b < infinityBits) : (exact b).bits = b := by
  by_cases hdigits : mantissa b = 0
  · have hzero : (exact b).digits = 0 := by
      rw [← value_eq_zero_iff, value_exact, hdigits, Nat.cast_zero, zero_mul]
    have hfield : b / hiddenBit = 0 := by
      by_contra hfield
      have := le_mantissa hfield
      omega
    rw [bits, if_pos hzero, ← pattern_eq b, hdigits, binaryPlace, hfield]
    rfl
  · have hexact : (exact b).digits ≠ 0 := by
      rw [ne_eq, ← value_eq_zero_iff, value_exact]
      positivity
    rw [bits_eq_nearestBits hexact, value_exact, nearestBits_mantissa hb hdigits]

/-! ### Digits left out -/

/-- The digits are those in front of the zeros at the end, and these zeros. -/
theorem digits_eq_pow_mul (d : Decimal) :
    d.digits = 10 ^ (d.digitChars.reverse.takeWhile (· == '0')).length *
      Nat.ofDigitChars 10 (d.digitChars.reverse.dropWhile (· == '0')).reverse 0 := by
  have hzeros : d.digitChars.reverse.takeWhile (· == '0') =
      List.replicate (d.digitChars.reverse.takeWhile (· == '0')).length '0' := by
    refine List.eq_replicate_of_mem fun c hc => ?_
    have hzero := List.mem_takeWhile_imp hc
    exact beq_iff_eq.mp hzero
  have hsplit := List.takeWhile_append_dropWhile (p := (· == '0')) (l := d.digitChars.reverse)
  rw [hzeros, ← List.reverse_inj, List.reverse_reverse, List.reverse_append,
    List.reverse_replicate] at hsplit
  rw [← Nat.ofDigitChars_replicate_zero, ← Nat.ofDigitChars_append, hsplit, digitChars,
    Nat.ofDigitChars_ten_toDigits]

/-- Zeros at the end of the digits count for nothing. -/
theorem value_trim (d : Decimal) : d.trim.value = d.value := by
  have hdigits := d.digits_eq_pow_mul
  rw [trim]
  generalize (d.digitChars.reverse.takeWhile (· == '0')).length = zeros at hdigits ⊢
  rw [value, value, hdigits, Nat.pow_eq, Nat.mul_div_cancel_left _ (by positivity),
    zpow_add₀ (by norm_num)]
  push_cast
  rw [zpow_natCast]
  ring

/-- What is found for a finite double is read back as that double. -/
theorem bits_shortest (hb : b < infinityBits) : (shortest b).bits = b := by
  rw [shortest]
  split
  · rename_i hb
    rw [hb]
    rfl
  · rw [bits_congr (value_trim _)]
    cases hfound : List.findSome? _ _ with
    | none => exact bits_exact hb
    | some d =>
      obtain ⟨cut, -, hcut⟩ := List.exists_of_findSome?_eq_some hfound
      have hread := List.find?_some hcut
      exact beq_iff_eq.mp hread

/-- The digits of zero have no exponent. -/
theorem exponent_shortest (hb : b < infinityBits) (hzero : (shortest b).digits = 0) :
    (shortest b).exponent = 0 := by
  have hbits := bits_shortest hb
  rw [bits, if_pos hzero] at hbits
  rw [shortest, if_pos hbits.symm]

end Decimal

end LoxLang
