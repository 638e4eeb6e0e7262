/-
How a number is printed.

A number is printed without an exponent.  `Plain cs v` says that the characters `cs` are such a
number without a superfluous zero in front of its digits or after them, and that it is `v`.

* `Decimal.shortest_last` — the shortest digits of a double do not end with a zero;
* `Decimal.shortest_plain` — so what is printed for them is plain.
-/
import LoxLang.Proofs.Decimal.Notation
import LoxLang.Proofs.Decimal.Shortest

namespace LoxLang

/-- Digits after a point without a superfluous zero at the end. -/
structure IsFraction (cs : List Char) : Prop where
  ne_nil : cs ≠ []
  areDigits : AreDigits cs
  last : cs.getLast? ≠ some '0'

/-- The characters are a number without an exponent and without superfluous zeros. -/
inductive Plain : List Char → ℚ → Prop where
  | whole {whole : List Char} (hwhole : IsWhole whole) : Plain whole (Nat.ofDigitChars 10 whole 0)
  | point {whole fraction : List Char} (hwhole : IsWhole whole) (hfraction : IsFraction fraction) :
      Plain (whole ++ '.' :: fraction) (Decimal.ofDigits whole fraction).value

/-! ### The last digit -/

theorem getLast?_toDigits (n : ℕ) :
    (Nat.toDigits 10 n).getLast? = some (Nat.digitChar (n % 10)) := by
  by_cases hn : n < 10
  · rw [Nat.toDigits_of_lt_base hn, Nat.mod_eq_of_lt hn]
    rfl
  · rw [Nat.toDigits_of_base_le (by decide) (by omega), List.getLast?_concat]

theorem digitChar_eq_zero {n : ℕ} (hn : n < 10) (h : Nat.digitChar n = '0') : n = 0 := by
  have hdigit := Nat.toNat_digitChar_sub_48_of_lt_ten hn
  rw [h] at hdigit
  exact hdigit.symm

namespace Decimal

variable {d : Decimal} {b : ℕ}

/-- Where the zeros at the end of a number have been taken away, its last digit is no zero. -/
theorem trim_last (h : d.digits ≠ 0) : d.trim.digits % 10 ≠ 0 := by
  have hdigits := d.digits_eq_pow_mul
  have hmem : ∀ c ∈ d.digitChars.reverse.dropWhile (· == '0'), c.isDigit := by
    intro c hc
    have hc := (List.dropWhile_sublist _).mem hc
    exact areDigits_toDigits _ c (List.mem_reverse.mp hc)
  have hstop := List.head?_dropWhile_not (· == '0') d.digitChars.reverse
  rw [trim]
  generalize d.digitChars.reverse.dropWhile (· == '0') = front at hdigits hmem hstop
  generalize (d.digitChars.reverse.takeWhile (· == '0')).length = zeros at hdigits ⊢
  cases front with
  | nil => exact absurd hdigits h
  | cons c front =>
    have hc : c ≠ '0' := by simpa using hstop
    have hdigit : 48 ≤ c.toNat ∧ c.toNat ≤ 57 :=
      Char.isDigit_iff_toNat.mp (hmem c List.mem_cons_self)
    have hvalue : c.toNat ≠ 48 := fun hvalue => hc (Char.toNat_inj.mp hvalue)
    rw [hdigits, Nat.pow_eq, Nat.mul_div_cancel_left _ (by positivity), List.reverse_cons,
      Nat.ofDigitChars_append, Nat.ofDigitChars_cons, Nat.ofDigitChars_nil]
    show (10 * _ + (c.toNat - 48)) % 10 ≠ 0
    omega

/-- The last of the shortest digits is no zero, unless there is nothing but a zero. -/
theorem shortest_last (h : (shortest b).digits ≠ 0) : (shortest b).digits % 10 ≠ 0 := by
  rw [shortest] at h ⊢
  split at h
  · exact absurd rfl h
  · rename_i hb
    rw [if_neg hb]
    refine trim_last fun hzero => h ?_
    dsimp only [trim]
    rw [hzero, Nat.zero_div]

end Decimal

/-! ### Digits around a point -/

namespace Decimal

variable {d : Decimal} {cs : List Char}

theorem positional_chars : ∀ c ∈ d.positional, c.isDigit ∨ c = '.' := by
  have hdigits : ∀ c ∈ d.digitChars, c.isDigit := areDigits_toDigits _
  have hzeros (n : ℕ) : ∀ c ∈ List.replicate n '0', c.isDigit := areDigits_zeros n
  intro c hc
  rw [positional] at hc
  split at hc
  · rcases List.mem_append.mp hc with hc | hc
    · exact .inl (hdigits c hc)
    · exact .inl (hzeros _ c hc)
  dsimp only at hc
  split at hc
  · rcases List.mem_append.mp hc with hc | hc
    · exact .inl (hdigits c (List.mem_of_mem_take hc))
    · rcases List.mem_cons.mp hc with rfl | hc
      · exact .inr rfl
      · exact .inl (hdigits c (List.mem_of_mem_drop hc))
  · rcases List.mem_cons.mp hc with rfl | hc
    · exact .inl (by decide)
    rcases List.mem_cons.mp hc with rfl | hc
    · exact .inr rfl
    rcases List.mem_append.mp hc with hc | hc
    · exact .inl (hzeros _ c hc)
    · exact .inl (hdigits c hc)

/-- Where digits come after the point, the last one is the last one of the number. -/
theorem getLast?_positional (hexponent : d.exponent < 0) :
    d.positional.getLast? = d.digitChars.getLast? := by
  have hne := d.digitChars_ne_nil
  obtain ⟨n, hn⟩ := Int.eq_ofNat_of_zero_le (show 0 ≤ -d.exponent by omega)
  rw [positional, if_neg (by omega)]
  simp only [hn, Int.toNat_natCast]
  split
  · rename_i hlt
    have hdrop : d.digitChars.drop (d.digitChars.length - n) ≠ [] := by
      rw [ne_eq, List.drop_eq_nil_iff]
      omega
    conv_rhs => rw [← List.take_append_drop (d.digitChars.length - n) d.digitChars]
    rw [List.getLast?_append_of_ne_nil _ (List.cons_ne_nil _ _), ← List.singleton_append,
      List.getLast?_append_of_ne_nil _ hdrop, List.getLast?_append_of_ne_nil _ hdrop]
  · have hzeros : List.replicate (n - d.digitChars.length) '0' ++ d.digitChars ≠ [] :=
      List.append_ne_nil_of_right_ne_nil _ hne
    have hpoint : ['0', '.'] ++ (List.replicate (n - d.digitChars.length) '0' ++ d.digitChars)
        = '0' :: '.' :: (List.replicate (n - d.digitChars.length) '0' ++ d.digitChars) := rfl
    rw [← hpoint, List.getLast?_append_of_ne_nil _ hzeros, List.getLast?_append_of_ne_nil _ hne]

/-- A number that is written without an exponent has a point. -/
theorem exists_point (h : Numeral cs d) (he : 'e' ∉ cs) : ∃ whole fraction, IsWhole whole ∧
    AreDigits fraction ∧ fraction ≠ [] ∧ cs = whole ++ '.' :: fraction ∧
      d = .ofDigits whole fraction := by
  cases h with
  | point hwhole hfraction hne => exact ⟨_, _, hwhole, hfraction, hne, rfl, rfl⟩
  | power => exact absurd (by simp) he

/-- A number of which the last digit is no zero is written without superfluous zeros. -/
theorem positional_plain (hzero : d.digits = 0 → d.exponent = 0)
    (hlast : d.digits ≠ 0 → d.digits % 10 ≠ 0) : Plain d.positional d.value := by
  by_cases hexponent : 0 ≤ d.exponent
  · have hzeros : d.digits = 0 → d.exponent.toNat = 0 := fun hd => by rw [hzero hd]; rfl
    have hplain := Plain.whole (isWhole_digitChars hzeros)
    have hvalue : (Nat.ofDigitChars 10 (d.digitChars ++ List.replicate d.exponent.toNat '0') 0 : ℚ)
        = d.value := by
      obtain ⟨n, hn⟩ := Int.eq_ofNat_of_zero_le hexponent
      rw [Nat.ofDigitChars_append, ofDigitChars_digitChars, Nat.ofDigitChars_replicate_zero, value,
        hn]
      push_cast
      rw [zpow_natCast, mul_comm]
      rfl
    rw [positional, if_pos hexponent]
    rwa [hvalue] at hplain
  · have hdigits : d.digits ≠ 0 := fun hd => hexponent (hzero hd).ge
    have hexponent' : d.exponent < 0 := by omega
    have hpower : 'e' ∉ d.positional := fun hmem => absurd (positional_chars _ hmem) (by decide)
    obtain ⟨whole, fraction, hwhole, hfraction, hne, htext, hd⟩ :=
      exists_point (fraction_numeral hdigits hexponent') hpower
    have hend : fraction.getLast? = some (Nat.digitChar (d.digits % 10)) := by
      have hpoint : '.' :: fraction = ['.'] ++ fraction := rfl
      rw [← getLast?_toDigits, ← digitChars, ← getLast?_positional hexponent', htext,
        List.getLast?_append_of_ne_nil _ (List.cons_ne_nil _ _), hpoint,
        List.getLast?_append_of_ne_nil _ hne]
    have hplain : Plain (whole ++ '.' :: fraction) (ofDigits whole fraction).value := by
      refine .point hwhole ⟨hne, hfraction, fun hend' => ?_⟩
      have hzero := Option.some.inj (hend.symm.trans hend')
      exact hlast hdigits (digitChar_eq_zero (Nat.mod_lt _ (by decide)) hzero)
    rwa [← htext, ← hd] at hplain

/-- What is printed for the shortest digits of a double is plain. -/
theorem shortest_plain {b : ℕ} (hb : b < infinityBits) :
    Plain (shortest b).positional (shortest b).value :=
  positional_plain (exponent_shortest hb) shortest_last

end Decimal

end LoxLang
