/-
The nearest double.

`patternValue b` is the number that the non-negative finite double with the pattern `b` is.  The
pattern of infinity counts as the number that would come after the largest finite double, so that
rounding to infinity is rounding to a neighbour like any other.

* `nearestEven_error` — rounding to a whole number misses by a half at most, and by a half only
  where it ends at an even number.
* `patternValue_nearestBits` — what is rounded to whole multiples of a power of two is a double.
* `nearest_nearestBits`, `even_nearestBits` — no other pattern is nearer, and of two that are
  equally near the even one is taken.
* `Decimal.toFloat_isNearest` — so a decimal number becomes the double nearest to it.
-/
import LoxLang.Proofs.Decimal.Bits
import LoxLang.Proofs.Decimal.Shortest

namespace LoxLang

open Float.Model.UnpackedFloat

/-! ### Whole numbers -/

section WholeNumbers

variable {v : ℚ} {n : ℕ}

/-- Twice the distance from the quotient, in whole numbers. -/
theorem two_mul_roundHalfEven_sub (num : ℕ) {den : ℕ} (hden : 0 < den) :
    |2 * ((roundHalfEven num den : ℤ) * den - num)| ≤ den ∧
      (|2 * ((roundHalfEven num den : ℤ) * den - num)| = den → Even (roundHalfEven num den)) := by
  have hsplit : (num : ℤ) = (num / den : ℕ) * den + (num % den : ℕ) := by
    exact_mod_cast (Nat.div_add_mod' num den).symm
  have hrest : num % den < den := Nat.mod_lt _ hden
  rw [hsplit, roundHalfEven]
  generalize num / den = q at hsplit ⊢
  generalize num % den = r at hsplit hrest ⊢
  split
  · rename_i hbelow
    have hdistance : 2 * ((q : ℤ) * den - (q * den + r)) = -(2 * r) := by ring
    rw [hdistance, abs_neg, abs_of_nonneg (by positivity)]
    constructor
    · omega
    · omega
  split
  · rename_i habove
    have hdistance : 2 * (((q + 1 : ℕ) : ℤ) * den - (q * den + r)) = 2 * (den - r) := by
      push_cast
      ring
    rw [hdistance, abs_of_nonneg (by omega)]
    constructor
    · omega
    · omega
  · have hhalf : 2 * r = den := by omega
    have heven : Even (q + q % 2) := Nat.even_iff.mpr (by omega)
    refine ⟨?_, fun _ => heven⟩
    rcases Nat.mod_two_eq_zero_or_one q with hq | hq
    · have hdistance : 2 * (((q + q % 2 : ℕ) : ℤ) * den - (q * den + r)) = -(2 * r) := by
        rw [hq]
        push_cast
        ring
      rw [hdistance, abs_neg, abs_of_nonneg (by positivity)]
      omega
    · have hdistance : 2 * (((q + q % 2 : ℕ) : ℤ) * den - (q * den + r)) = 2 * (den - r) := by
        rw [hq]
        push_cast
        ring
      rw [hdistance, abs_of_nonneg (by omega)]
      omega

/-- Rounding to a whole number misses by a half at most, and by a half only where it ends at an
even number. -/
theorem nearestEven_error (hv : 0 ≤ v) :
    |(nearestEven v : ℚ) - v| ≤ 1 / 2 ∧
      (|(nearestEven v : ℚ) - v| = 1 / 2 → Even (nearestEven v)) := by
  have hden : (0 : ℚ) < v.den := by exact_mod_cast v.den_pos
  obtain ⟨num, hnum⟩ := Int.eq_ofNat_of_zero_le (Rat.num_nonneg.mpr hv)
  have hmul : v * v.den = num := by
    rw [Rat.mul_den_eq_num, hnum]
    rfl
  obtain ⟨hle, heven⟩ := two_mul_roundHalfEven_sub num v.den_pos
  have hround : nearestEven v = roundHalfEven num v.den := by
    rw [nearestEven, hnum]
    rfl
  rw [← hround] at hle heven
  have hdistance : ((|2 * ((nearestEven v : ℤ) * v.den - num)| : ℤ) : ℚ)
      = |(nearestEven v : ℚ) - v| * (2 * v.den) := by
    push_cast
    rw [← hmul, ← sub_mul, abs_mul, abs_mul, abs_two, abs_of_pos hden]
    ring
  have hle' : |(nearestEven v : ℚ) - v| * (2 * v.den) ≤ v.den := by
    rw [← hdistance]
    exact_mod_cast hle
  constructor
  · rw [le_div_iff₀ two_pos]
    refine le_of_mul_le_mul_right ?_ hden
    linarith
  · intro hhalf
    refine heven ?_
    rw [hhalf, one_div, inv_mul_cancel_left₀ two_ne_zero] at hdistance
    exact_mod_cast hdistance

/-- Another whole number is not nearer. -/
theorem nearestEven_nearest (hv : 0 ≤ v) (hn : n ≠ nearestEven v) :
    |(nearestEven v : ℚ) - v| ≤ |(n : ℚ) - v| ∧
      (|(n : ℚ) - v| = |(nearestEven v : ℚ) - v| → Even (nearestEven v)) := by
  obtain ⟨hle, heven⟩ := nearestEven_error hv
  -- Two whole numbers are at least one apart, so one half is left for the other one.
  have hapart : (1 : ℚ) ≤ |(n : ℚ) - nearestEven v| := by
    have hint : (1 : ℤ) ≤ |(n : ℤ) - nearestEven v| :=
      Int.one_le_abs (sub_ne_zero.mpr (by exact_mod_cast hn))
    exact_mod_cast hint
  have htriangle := abs_sub_le (n : ℚ) v (nearestEven v)
  rw [abs_sub_comm v] at htriangle
  constructor
  · linarith
  · intro htie
    refine heven (le_antisymm hle ?_)
    linarith

end WholeNumbers

/-! ### Patterns -/

/-- The number that a pattern stands for. -/
def patternValue (b : ℕ) : ℚ := mantissa b * 2 ^ binaryPlace b

/-- From here on a number is rounded to infinity: half of the last digit is missing to the number
that would come after the largest finite double. -/
def overflowBound : ℚ := 2 ^ (1024 : ℤ) - 2 ^ (970 : ℤ)

section Patterns

variable {v : ℚ} {m : ℕ} {q : ℤ}

theorem patternValue_nonneg (b : ℕ) : 0 ≤ patternValue b := by
  rw [patternValue]
  positivity

/-- Whole multiples of the last digit kept are doubles.  The carry out of all the digits gives the
next power of two. -/
theorem patternValue_of_place (hq : -1074 ≤ q) (hm : m ≤ 2 ^ 53)
    (hfull : q = -1074 ∨ 2 ^ 52 ≤ m) :
    patternValue ((q + 1074).toNat * hiddenBit + m) = m * 2 ^ q := by
  obtain ⟨k, hk⟩ := Int.eq_ofNat_of_zero_le (show 0 ≤ q + 1074 by omega)
  obtain rfl : q = k - 1074 := by omega
  have hplace : ((k : ℤ) - 1074 + 1074).toNat = k := by omega
  rw [hplace, patternValue, mantissa, binaryPlace]
  rcases lt_or_ge m (2 ^ 52) with hsmall | hlarge
  · -- A subnormal number.
    obtain rfl : k = 0 := by omega
    have hfield : (0 * hiddenBit + m) / hiddenBit = 0 := by rw [hiddenBit]; omega
    have hrest : (0 * hiddenBit + m) % hiddenBit = m := by rw [hiddenBit]; omega
    rw [hfield, hrest]
    norm_num
  rcases lt_or_eq_of_le hm with hlt | rfl
  · have hfield : (k * hiddenBit + m) / hiddenBit = k + 1 := by rw [hiddenBit]; omega
    have hrest : hiddenBit + (k * hiddenBit + m) % hiddenBit = m := by rw [hiddenBit]; omega
    have hmax : ((max (k + 1) 1 : ℕ) : ℤ) - 1075 = k - 1074 := by omega
    rw [hfield, if_neg (Nat.succ_ne_zero k), hrest, hmax]
  · have hfield : (k * hiddenBit + 2 ^ 53) / hiddenBit = k + 2 := by rw [hiddenBit]; omega
    have hrest : hiddenBit + (k * hiddenBit + 2 ^ 53) % hiddenBit = 2 ^ 52 := by
      rw [hiddenBit]
      omega
    have hmax : ((max (k + 2) 1 : ℕ) : ℤ) - 1075 = k - 1074 + 1 := by omega
    rw [hfield, if_neg (Nat.succ_ne_zero _), hrest, hmax, zpow_add_one₀ two_ne_zero]
    push_cast
    ring

/-- A number has 53 digits in front of the last one kept, unless it is subnormal. -/
theorem lastPlace_bounds (hv : 0 < v) : v / 2 ^ lastPlace v < 2 ^ 53 ∧
    (lastPlace v = -1074 ∨ 2 ^ 52 ≤ v / 2 ^ lastPlace v) := by
  have hlog := Int.lt_zpow_succ_log_self one_lt_two v
  have hlog' := Int.zpow_log_le_self one_lt_two hv
  constructor
  · rw [div_lt_iff₀ (by positivity), ← zpow_natCast, ← zpow_add₀ two_ne_zero]
    refine hlog.trans_le (zpow_le_zpow_right₀ one_le_two ?_)
    rw [lastPlace]
    omega
  · by_cases hplace : lastPlace v = -1074
    · exact .inl hplace
    · refine .inr ?_
      rw [le_div_iff₀ (by positivity), ← zpow_natCast, ← zpow_add₀ two_ne_zero]
      refine le_trans (zpow_le_zpow_right₀ one_le_two ?_) hlog'
      rw [lastPlace] at hplace ⊢
      omega

/-- The digits that are kept of a number. -/
theorem nearestEven_bounds (hv : 0 < v) : nearestEven (v / 2 ^ lastPlace v) ≤ 2 ^ 53 ∧
    (lastPlace v = -1074 ∨ 2 ^ 52 ≤ nearestEven (v / 2 ^ lastPlace v)) := by
  obtain ⟨hlt, hfull⟩ := lastPlace_bounds hv
  obtain ⟨hle, -⟩ := nearestEven_error (v := v / 2 ^ lastPlace v) (by positivity)
  constructor
  · have hnext : (nearestEven (v / 2 ^ lastPlace v) : ℚ) < 2 ^ 53 + 1 := by
      have hupper := (abs_le.mp hle).2
      linarith
    exact Nat.lt_succ_iff.mp (by exact_mod_cast hnext)
  · exact hfull.imp_right fun h => le_nearestEven (by exact_mod_cast h)

/-- Where rounding does not go to infinity, it goes to the nearest multiple of the last digit
kept. -/
theorem patternValue_nearestBits (hv : 0 < v) (hfinite : nearestBits v < infinityBits) :
    patternValue (nearestBits v) = nearestEven (v / 2 ^ lastPlace v) * 2 ^ lastPlace v := by
  obtain ⟨hupper, hfull⟩ := nearestEven_bounds hv
  have hpattern := (min_lt_iff.mp hfinite).resolve_left (lt_irrefl _)
  rw [nearestBits, min_eq_right hpattern.le]
  exact patternValue_of_place (le_max_left _ _) hupper hfull

theorem even_nearestBits_iff (hfinite : nearestBits v < infinityBits) :
    Even (nearestBits v) ↔ Even (nearestEven (v / 2 ^ lastPlace v)) := by
  have hpattern := (min_lt_iff.mp hfinite).resolve_left (lt_irrefl _)
  have hhidden : Even hiddenBit := by decide
  rw [nearestBits, min_eq_right hpattern.le, Nat.even_add]
  exact iff_true_left (hhidden.mul_left _)

/-- A double is a multiple of the last digit kept, or it has fewer digits in front of it than the
number that is rounded. -/
theorem patternValue_multiple (b : ℕ) (q : ℤ) :
    (∃ n : ℕ, patternValue b / 2 ^ q = n) ∨ (q ≠ -1074 ∧ patternValue b / 2 ^ q < 2 ^ 52) := by
  rcases le_or_gt q (binaryPlace b) with hle | hlt
  · left
    obtain ⟨k, hk⟩ := Int.eq_ofNat_of_zero_le (sub_nonneg.mpr hle)
    refine ⟨mantissa b * 2 ^ k, ?_⟩
    rw [patternValue, mul_div_assoc, ← zpow_sub₀ two_ne_zero, hk]
    push_cast
    rfl
  · right
    have hplace := neg_le_binaryPlace b
    refine ⟨by omega, ?_⟩
    rw [div_lt_iff₀ (by positivity), patternValue]
    calc (mantissa b : ℚ) * 2 ^ binaryPlace b < 2 ^ 53 * 2 ^ binaryPlace b := by
          gcongr
          exact_mod_cast mantissa_lt b
      _ = 2 ^ 52 * 2 ^ (binaryPlace b + 1) := by
          rw [zpow_add_one₀ two_ne_zero]
          ring
      _ ≤ 2 ^ 52 * 2 ^ q := by
          gcongr
          · norm_num
          · omega

/-- No double is nearer than the one that rounding gives, and if another one is equally near, the
one that it gives has an even pattern. -/
theorem nearest_nearestBits (hv : 0 < v) (hfinite : nearestBits v < infinityBits) (b : ℕ) :
    |patternValue (nearestBits v) - v| ≤ |patternValue b - v| ∧
      (patternValue b ≠ patternValue (nearestBits v) →
        |patternValue b - v| = |patternValue (nearestBits v) - v| → Even (nearestBits v)) := by
  rw [patternValue_nearestBits hv hfinite, even_nearestBits_iff hfinite]
  have hpow : (0 : ℚ) < 2 ^ lastPlace v := by positivity
  have hfull := (lastPlace_bounds hv).2
  -- In units of the last digit kept, the distances are those of `nearestEven_nearest`.
  have hunits (w : ℚ) : |w * 2 ^ lastPlace v - v| = |w - v / 2 ^ lastPlace v| * 2 ^ lastPlace v := by
    rw [← abs_of_pos hpow, ← abs_mul, abs_of_pos hpow, sub_mul, div_mul_cancel₀ _ hpow.ne']
  obtain ⟨w, hw⟩ : ∃ w, patternValue b = w * 2 ^ lastPlace v :=
    ⟨patternValue b / 2 ^ lastPlace v, (div_mul_cancel₀ _ hpow.ne').symm⟩
  have hmultiple := patternValue_multiple b (lastPlace v)
  rw [hw, mul_div_assoc, div_self hpow.ne', mul_one] at hmultiple
  have hu : 0 ≤ v / 2 ^ lastPlace v := by positivity
  rw [hw, hunits, hunits, mul_le_mul_iff_left₀ hpow, mul_left_inj' hpow.ne', ne_eq,
    mul_left_inj' hpow.ne']
  generalize v / 2 ^ lastPlace v = u at hu hfull hmultiple ⊢
  rcases hmultiple with ⟨n, rfl⟩ | ⟨hplace, hless⟩
  · by_cases hn : n = nearestEven u
    · rw [hn]
      exact ⟨le_rfl, fun h => absurd rfl h⟩
    · exact (nearestEven_nearest hu hn).imp_right fun heven _ => heven
  · -- The power of two below the number is nearer than what has fewer digits.
    have hpower := hfull.resolve_left hplace
    have hnearer : |(nearestEven u : ℚ) - u| ≤ |((2 ^ 52 : ℕ) : ℚ) - u| := by
      by_cases hn : 2 ^ 52 = nearestEven u
      · rw [hn]
      · exact (nearestEven_nearest hu hn).1
    have hstrict : |((2 ^ 52 : ℕ) : ℚ) - u| < |w - u| := by
      rw [abs_sub_comm _ u, abs_sub_comm w, abs_of_nonneg, abs_of_nonneg]
      · push_cast
        linarith
      · linarith
      · push_cast
        linarith
    exact ⟨(hnearer.trans_lt hstrict).le, fun _ htie => absurd htie (hnearer.trans_lt hstrict).ne'⟩

/-- The bound in units of the last digit of the largest finite doubles. -/
theorem overflowBound_eq : overflowBound = (2 ^ 53 - 1 / 2) * 2 ^ (971 : ℤ) := by
  have hcarry : (2 : ℚ) ^ (1024 : ℤ) = 2 ^ 53 * 2 ^ (971 : ℤ) := by
    rw [← zpow_natCast, ← zpow_add₀ two_ne_zero]
    rfl
  have hhalf : (2 : ℚ) ^ (971 : ℤ) = 2 ^ (970 : ℤ) * 2 := zpow_add_one₀ two_ne_zero 970
  rw [overflowBound, hcarry, sub_mul, hhalf]
  ring

/-- Below the bound the digits that are kept do not carry into the pattern of infinity. -/
theorem nearestBits_lt_infinityBits (hv : 0 < v) (h : v < overflowBound) :
    nearestBits v < infinityBits := by
  have hlarge : v < 2 ^ (1024 : ℤ) := h.trans (sub_lt_self _ (by positivity))
  have hlog : Int.log 2 v < 1024 := (Int.lt_zpow_iff_log_lt one_lt_two hv).mp hlarge
  have hupper := (nearestEven_bounds hv).1
  rw [nearestBits]
  refine (min_le_right _ _).trans_lt ?_
  rcases lt_or_eq_of_le (show lastPlace v ≤ 971 by rw [lastPlace]; omega) with hplace | hplace
  · have hfield : (lastPlace v + 1074).toNat ≤ 2044 := by omega
    rw [infinityBits, hiddenBit]
    omega
  · -- With the last exponent there is, less than half a digit more is not enough for a carry.
    have hscaled : v / 2 ^ (971 : ℤ) < 2 ^ 53 - 1 / 2 := by
      rwa [div_lt_iff₀ (by positivity), ← overflowBound_eq]
    have hnonneg : 0 ≤ v / 2 ^ (971 : ℤ) := by positivity
    rw [hplace] at hupper ⊢
    generalize v / 2 ^ (971 : ℤ) = u at hscaled hnonneg ⊢
    have herror := (abs_le.mp (nearestEven_error hnonneg).1).2
    have hless : (nearestEven u : ℚ) < (2 ^ 53 : ℕ) := by
      push_cast
      linarith
    have hless' : nearestEven u < 2 ^ 53 := by exact_mod_cast hless
    rw [infinityBits, hiddenBit]
    omega

/-- From the bound on, a number is rounded to infinity. -/
theorem nearestBits_of_overflow (h : overflowBound ≤ v) : nearestBits v = infinityBits := by
  have hbound : (2 : ℚ) ^ (1023 : ℤ) ≤ overflowBound := by
    rw [show (1023 : ℤ) = (52 : ℕ) + 971 by norm_num, zpow_add₀ two_ne_zero, zpow_natCast,
      overflowBound_eq]
    gcongr
    norm_num
  have hv : 0 < v := lt_of_lt_of_le (by positivity) (hbound.trans h)
  rcases le_or_gt (2 ^ (1024 : ℤ)) v with hlarge | hlt
  · exact nearestBits_of_large hlarge
  have hlog : Int.log 2 v < 1024 := (Int.lt_zpow_iff_log_lt one_lt_two hv).mp hlt
  have hlog' : 1023 ≤ Int.log 2 v := (Int.zpow_le_iff_le_log one_lt_two hv).mp (hbound.trans h)
  have hplace : lastPlace v = 971 := by
    rw [lastPlace]
    omega
  have hscaled : 2 ^ 53 - 1 / 2 ≤ v / 2 ^ (971 : ℤ) := by
    rwa [le_div_iff₀ (by positivity), ← overflowBound_eq]
  have hnonneg : 0 ≤ v / 2 ^ (971 : ℤ) := by positivity
  rw [nearestBits, hplace]
  generalize v / 2 ^ (971 : ℤ) = u at hscaled hnonneg ⊢
  obtain ⟨herror, heven⟩ := nearestEven_error hnonneg
  have hlower : 2 ^ 53 - 1 ≤ nearestEven u := by
    refine le_nearestEven ?_
    push_cast
    linarith
  -- The number below the power of two is odd, so a half goes to the power of two.
  have hcarry : nearestEven u ≠ 2 ^ 53 - 1 := by
    intro hodd
    have hhalf : |(nearestEven u : ℚ) - u| = 1 / 2 := by
      refine le_antisymm herror ?_
      rw [hodd, abs_sub_comm]
      refine le_trans ?_ (le_abs_self _)
      push_cast
      linarith
    have hparity := heven hhalf
    rw [hodd] at hparity
    exact absurd hparity (by decide)
  refine min_eq_left ?_
  rw [infinityBits, hiddenBit]
  omega

end Patterns

/-! ### Doubles -/

/-- The number that a finite double is. -/
def doubleValue (x : Float) : ℚ :=
  if isNegative x then -patternValue (magnitude x) else patternValue (magnitude x)

/-- The double `x` is a number, and not infinity. -/
def IsFinite (x : Float) : Prop := magnitude x < infinityBits

/-- `x` is the double nearest to the number `v`, which is not negative: no finite double is nearer,
and if another one is equally near, the last digit of `x` is even.  If `v` is so large that the
largest finite double is nearer only because there is no larger one, `x` is infinity. -/
structure IsNearest (x : Float) (v : ℚ) : Prop where
  positive : isNegative x = false
  infinite : overflowBound ≤ v → magnitude x = infinityBits
  finite : v < overflowBound → IsFinite x
  nearest : v < overflowBound → ∀ y, IsFinite y → |doubleValue x - v| ≤ |doubleValue y - v|
  even : v < overflowBound → ∀ y, IsFinite y → doubleValue y ≠ doubleValue x →
    |doubleValue y - v| = |doubleValue x - v| → Even (magnitude x)

section Doubles

variable {b : ℕ} {v : ℚ}

/-- The double with a pattern up to that of infinity. -/
theorem toNat_toBits_ofBits (hb : b ≤ infinityBits) :
    (Float.ofBits (UInt64.ofNat b)).toBits.toNat = b := by
  have hlt : b < 2 ^ 64 := hb.trans_lt (by decide)
  -- The exponent and the mantissa are those of the pattern, and there is no sign.
  have hpattern : (UInt64.ofNat b).toBitVec = packComponents .binary64
      .positive (BitVec.ofNat 11 (b / hiddenBit)) (BitVec.ofNat 52 (b % hiddenBit)) := by
    apply BitVec.eq_of_toNat_eq
    rw [toNat_packComponents]
    rw [infinityBits] at hb
    simp [Sign.toBitVec, hiddenBit]
    omega
  have hnumber : BitVec.ofNat 11 (b / hiddenBit) = -1#11 → BitVec.ofNat 52 (b % hiddenBit) = 0#52 := by
    rw [← BitVec.toNat_inj, ← BitVec.toNat_inj]
    rw [infinityBits] at hb
    simp [hiddenBit]
    omega
  show (Float.ofBits (UInt64.ofNat b)).toBits.toBitVec.toNat = b
  rw [toBitVec_ofBits, hpattern, pack_unpack_of_valid (valid_packComponents hnumber), ← hpattern]
  exact Nat.mod_eq_of_lt hlt

theorem isNegative_ofBits (hb : b ≤ infinityBits) :
    isNegative (Float.ofBits (UInt64.ofNat b)) = false := by
  rw [isNegative, toNat_toBits_ofBits hb, decide_eq_false_iff_not, signBit]
  rw [infinityBits] at hb
  omega

theorem magnitude_ofBits (hb : b ≤ infinityBits) :
    magnitude (Float.ofBits (UInt64.ofNat b)) = b := by
  rw [magnitude, toNat_toBits_ofBits hb, signBit]
  rw [infinityBits] at hb
  omega

theorem doubleValue_ofBits (hb : b ≤ infinityBits) :
    doubleValue (Float.ofBits (UInt64.ofNat b)) = patternValue b := by
  rw [doubleValue, isNegative_ofBits hb, magnitude_ofBits hb]
  rfl

/-- A pattern to which no other one is preferred belongs to the nearest double: the opposite of a
double is further away. -/
theorem IsNearest.of_patterns (hv : 0 < v) (hb : b ≤ infinityBits)
    (hoverflow : overflowBound ≤ v → b = infinityBits)
    (hfinite : v < overflowBound → b < infinityBits)
    (hnearest : v < overflowBound → ∀ c, |patternValue b - v| ≤ |patternValue c - v| ∧
      (patternValue c ≠ patternValue b → |patternValue c - v| = |patternValue b - v| → Even b)) :
    IsNearest (Float.ofBits (UInt64.ofNat b)) v := by
  have hopposite (c : ℕ) : |patternValue c - v| ≤ |-patternValue c - v| ∧
      (|-patternValue c - v| ≤ |patternValue c - v| → patternValue c = 0) := by
    have hc := patternValue_nonneg c
    rw [← neg_add', abs_neg, abs_of_nonneg (add_nonneg hc hv.le), abs_le]
    refine ⟨⟨by linarith, by linarith⟩, fun hle => ?_⟩
    rcases le_abs.mp hle with h | h
    · linarith
    · linarith
  refine ⟨isNegative_ofBits hb, ?_, ?_, ?_, ?_⟩
  · rwa [magnitude_ofBits hb]
  · rwa [IsFinite, magnitude_ofBits hb]
  · intro h y _
    rw [doubleValue_ofBits hb, doubleValue]
    split
    · exact (hnearest h _).1.trans (hopposite _).1
    · exact (hnearest h _).1
  · intro h y _
    rw [doubleValue_ofBits hb, magnitude_ofBits hb, doubleValue]
    obtain ⟨hle, heven⟩ := hnearest h (magnitude y)
    split
    · intro hne htie
      -- Only a zero is as near as its opposite.
      have hzero := (hopposite (magnitude y)).2 (htie.le.trans hle)
      rw [hzero] at hne htie heven
      rw [neg_zero] at hne htie
      exact heven hne htie
    · exact heven

end Doubles

/-- A decimal number becomes the double nearest to it. -/
theorem Decimal.toFloat_isNearest (d : Decimal) : IsNearest d.toFloat d.value := by
  rw [toFloat]
  by_cases hd : d.digits = 0
  · have hvalue : d.value = 0 := value_eq_zero_iff.mpr hd
    have hzero : patternValue 0 = 0 := by
      rw [patternValue, show mantissa 0 = 0 from rfl, Nat.cast_zero, zero_mul]
    have hbound : 0 < overflowBound := sub_pos.mpr (zpow_lt_zpow_right₀ one_lt_two (by norm_num))
    have hle : 0 ≤ infinityBits := Nat.zero_le _
    rw [bits, if_pos hd, hvalue]
    refine ⟨isNegative_ofBits hle, fun h => absurd h hbound.not_ge, fun _ => ?_, fun _ y _ => ?_,
      fun _ y _ _ _ => ?_⟩
    · rw [IsFinite, magnitude_ofBits hle]
      decide
    · rw [doubleValue_ofBits hle, hzero, sub_zero, abs_zero]
      exact abs_nonneg _
    · rw [magnitude_ofBits hle]
      exact Even.zero
  · rw [bits_eq_nearestBits hd]
    have hv := value_pos hd
    exact .of_patterns hv (min_le_left _ _) nearestBits_of_overflow
      (nearestBits_lt_infinityBits hv)
      fun h c => nearest_nearestBits hv (nearestBits_lt_infinityBits hv h) c

end LoxLang
