/-
What the digits of a number stand for.

`Numeral cs d` says that the characters `cs` are a number as a JSON text has it, with a point or
an exponent, and that it stands for the decimal number `d`.  `Decimal.general_numeral`: a number in
the notation with a point or an exponent is one, and it stands for the number that is written.
`generalText_cases` says where a double is written so, and where it has a name.
-/
import LoxLang.Decimal.Notation
import LoxLang.Proofs.Decimal.Rounding

namespace LoxLang

/-- The characters are digits. -/
def AreDigits (cs : List Char) : Prop := ∀ c ∈ cs, c.isDigit = true

/-- The characters are the digits of a number without a superfluous zero in front. -/
structure IsWhole (cs : List Char) : Prop where
  ne_nil : cs ≠ []
  areDigits : AreDigits cs
  eq_zero : cs.head? = some '0' → cs = ['0']

/-- A point with digits after it, if there are any. -/
def pointed : List Char → List Char
  | [] => []
  | fraction => '.' :: fraction

/-- A sign in front of an exponent, and whether it is that of a negative one. -/
inductive PowerSign : Char → Bool → Prop where
  | plus : PowerSign '+' false
  | minus : PowerSign '-' true

/-- The number that digits stand for. -/
def numberOf (negative : Bool) (digits : List Char) : Int :=
  let n : Int := Nat.ofDigitChars 10 digits 0
  if negative then -n else n

/-- The characters stand for a number, with a point or with an exponent. -/
inductive Numeral : List Char → Decimal → Prop where
  | point {whole fraction : List Char} (hwhole : IsWhole whole) (hfraction : AreDigits fraction)
      (hne : fraction ≠ []) :
      Numeral (whole ++ '.' :: fraction) (.ofDigits whole fraction)
  | power {whole fraction size : List Char} {sign : Char} {negative : Bool} (hwhole : IsWhole whole)
      (hfraction : AreDigits fraction) (hsign : PowerSign sign negative) (hsize : AreDigits size)
      (hne : size ≠ []) :
      Numeral (whole ++ (pointed fraction ++ 'e' :: sign :: size))
        ⟨(Decimal.ofDigits whole fraction).digits,
          (Decimal.ofDigits whole fraction).exponent + numberOf negative size⟩

section Digits

variable {cs ds : List Char}

theorem AreDigits.append (hcs : AreDigits cs) (hds : AreDigits ds) : AreDigits (cs ++ ds) := by
  intro c hc
  rcases List.mem_append.mp hc with hc | hc
  · exact hcs c hc
  · exact hds c hc

theorem areDigits_zeros (n : ℕ) : AreDigits (List.replicate n '0') := by
  intro c hc
  rw [List.eq_of_mem_replicate hc]
  rfl

theorem areDigits_toDigits (n : ℕ) : AreDigits (Nat.toDigits 10 n) := fun _ hc =>
  Nat.isDigit_of_mem_toDigits (by decide) (by decide) hc

/-- The digits of a number that is not zero do not begin with one. -/
theorem head?_toDigits {n : ℕ} (hn : n ≠ 0) : (Nat.toDigits 10 n).head? ≠ some '0' := by
  induction n using Nat.strongRecOn with
  | ind n ih =>
    by_cases hlt : n < 10
    · rw [Nat.toDigits_of_lt_base hlt]
      intro h
      have hdigit := Nat.toNat_digitChar_sub_48_of_lt_ten hlt
      rw [Option.some.inj h] at hdigit
      exact hn hdigit.symm
    · rw [Nat.toDigits_of_base_le (by decide) (by omega),
        List.head?_append_of_ne_nil _ Nat.toDigits_ne_nil]
      exact ih (n / 10) (by omega) (by omega)

theorem isWhole_zero : IsWhole ['0'] := ⟨by simp, by simp [AreDigits], fun _ => rfl⟩

theorem isWhole_singleton {c : Char} (hc : c.isDigit) : IsWhole [c] :=
  ⟨by simp, by simpa [AreDigits], fun h => by simpa using h⟩

/-- Digits that begin with one that is not zero. -/
theorem isWhole_of_head? (hne : cs ≠ []) (hcs : AreDigits cs) (hhead : cs.head? ≠ some '0') :
    IsWhole cs :=
  ⟨hne, hcs, fun h => absurd h hhead⟩

theorem isWhole_toDigits (n : ℕ) : IsWhole (Nat.toDigits 10 n) := by
  by_cases hn : n = 0
  · rw [hn]
    exact isWhole_zero
  · exact isWhole_of_head? Nat.toDigits_ne_nil (areDigits_toDigits n) (head?_toDigits hn)

/-- What is written for a whole number. -/
theorem toList_toString (i : ℤ) : (toString i).toList =
    if i < 0 then '-' :: Nat.toDigits 10 i.natAbs else Nat.toDigits 10 i.natAbs := by
  cases i with
  | ofNat n => exact Nat.toList_repr
  | negSucc n =>
    show ("-" ++ (n + 1).repr).toList = _
    rw [String.toList_append, Nat.toList_repr, if_pos (Int.negSucc_lt_zero n)]
    rfl

end Digits

namespace Decimal

variable {d : Decimal}

theorem digitChars_ne_nil (d : Decimal) : d.digitChars ≠ [] := Nat.toDigits_ne_nil

theorem ofDigits_digits (whole fraction : List Char) :
    (ofDigits whole fraction).digits = Nat.ofDigitChars 10 (whole ++ fraction) 0 := rfl

theorem ofDigitChars_digitChars (d : Decimal) : Nat.ofDigitChars 10 d.digitChars 0 = d.digits :=
  Nat.ofDigitChars_ten_toDigits

/-- The digits of a number are those of a whole number, and so they are with zeros after them if
the number is not zero. -/
theorem isWhole_digitChars {n : ℕ} (h : d.digits = 0 → n = 0) :
    IsWhole (d.digitChars ++ List.replicate n '0') := by
  by_cases hd : d.digits = 0
  · rw [digitChars, hd, h hd]
    exact isWhole_zero
  · refine isWhole_of_head? (by simp [digitChars_ne_nil])
      ((areDigits_toDigits _).append (areDigits_zeros n)) ?_
    rw [List.head?_append_of_ne_nil _ d.digitChars_ne_nil]
    exact head?_toDigits hd

theorem mk_eq {digits : ℕ} {exponent : ℤ} (hdigits : digits = d.digits)
    (hexponent : exponent = d.exponent) : (⟨digits, exponent⟩ : Decimal) = d := by
  rw [hdigits, hexponent]

/-- The digits of a number, at least two. -/
def twoDigits (n : ℕ) : List Char :=
  if (Nat.toDigits 10 n).length < 2 then '0' :: Nat.toDigits 10 n else Nat.toDigits 10 n

theorem twoDigits_ne_nil (n : ℕ) : twoDigits n ≠ [] := by
  rw [twoDigits]
  split
  · exact List.cons_ne_nil _ _
  · exact Nat.toDigits_ne_nil

theorem areDigits_twoDigits (n : ℕ) : AreDigits (twoDigits n) := by
  rw [twoDigits]
  split
  · exact (areDigits_zeros 1).append (areDigits_toDigits n)
  · exact areDigits_toDigits n

theorem numberOf_twoDigits (e : ℤ) : numberOf (decide (e < 0)) (twoDigits e.natAbs) = e := by
  have hsize : Nat.ofDigitChars 10 (twoDigits e.natAbs) 0 = e.natAbs := by
    rw [twoDigits]
    split
    · exact Nat.ofDigitChars_ten_toDigits
    · exact Nat.ofDigitChars_ten_toDigits
  rw [numberOf, hsize]
  simp only [decide_eq_true_iff]
  split
  · omega
  · omega

theorem powerSign (e : ℤ) : PowerSign (if e < 0 then '-' else '+') (decide (e < 0)) := by
  by_cases h : e < 0
  · rw [if_pos h, decide_eq_true h]
    exact .minus
  · rw [if_neg h, decide_eq_false h]
    exact .plus

theorem withExponent_eq {c : Char} {fraction : List Char} (h : d.digitChars = c :: fraction) :
    d.withExponent = [c] ++ (pointed fraction ++
      'e' :: (if d.order < 0 then '-' else '+') :: twoDigits d.order.natAbs) := by
  rw [withExponent, h]
  cases fraction with
  | nil => rfl
  | cons c' cs => rfl

/-- One digit, the others after a point, and an exponent. -/
theorem withExponent_numeral (d : Decimal) : Numeral d.withExponent d := by
  obtain ⟨c, fraction, hds⟩ := List.exists_cons_of_ne_nil d.digitChars_ne_nil
  have hdigits : AreDigits (c :: fraction) := hds ▸ areDigits_toDigits _
  have hfraction : AreDigits fraction := fun c' hc' => hdigits c' (List.mem_cons_of_mem c hc')
  have hnumeral := Numeral.power (isWhole_singleton (hdigits c (List.mem_cons_self ..))) hfraction
    (powerSign d.order) (areDigits_twoDigits d.order.natAbs) (twoDigits_ne_nil _)
  rw [numberOf_twoDigits, ← withExponent_eq hds, mk_eq] at hnumeral
  · exact hnumeral
  · rw [← d.ofDigitChars_digitChars, hds]
    rfl
  · rw [order, hds, List.length_cons]
    show -(fraction.length : ℤ) + _ = _
    push_cast
    ring

/-- A whole number has a point and a zero after its digits. -/
theorem positional_numeral (h : d.digits = 0 → d.exponent = 0) (hexponent : 0 ≤ d.exponent) :
    ∃ d', Numeral (d.positional ++ ['.', '0']) d' ∧ d'.value = d.value := by
  have hzeros : d.digits = 0 → d.exponent.toNat = 0 := fun hd => by rw [h hd]; rfl
  rw [positional, if_pos hexponent]
  refine ⟨_, .point (isWhole_digitChars hzeros) (isWhole_zero.areDigits) (by simp), ?_⟩
  obtain ⟨n, hn⟩ := Int.eq_ofNat_of_zero_le hexponent
  have hdigits : (ofDigits (d.digitChars ++ List.replicate d.exponent.toNat '0') ['0']).digits =
      10 ^ (n + 1) * d.digits := by
    rw [ofDigits_digits, List.append_assoc, Nat.ofDigitChars_append, ofDigitChars_digitChars,
      ← List.replicate_one, List.replicate_append_replicate, Nat.ofDigitChars_replicate_zero, hn]
    rfl
  rw [value, hdigits, value, hn]
  show ((10 ^ (n + 1) * d.digits : ℕ) : ℚ) * 10 ^ (-1 : ℤ) = _
  push_cast
  rw [zpow_natCast, zpow_neg_one, pow_succ]
  field_simp

/-- A number with digits on both sides of the point. -/
theorem between_numeral {n : ℕ} (h : d.digits ≠ 0) (hn : n ≠ 0) (hexponent : d.exponent = -n)
    (hlt : n < d.digitChars.length) :
    Numeral (d.digitChars.take (d.digitChars.length - n) ++
      '.' :: d.digitChars.drop (d.digitChars.length - n)) d := by
  have hdigits : AreDigits d.digitChars := areDigits_toDigits _
  have hwhole : IsWhole (d.digitChars.take (d.digitChars.length - n)) := by
    refine isWhole_of_head? ?_ (fun c hc => hdigits c (List.mem_of_mem_take hc)) ?_
    · rw [← List.length_pos_iff, List.length_take]
      omega
    · rw [List.head?_take, if_neg (by omega)]
      exact head?_toDigits h
  have hfraction : AreDigits (d.digitChars.drop (d.digitChars.length - n)) :=
    fun c hc => hdigits c (List.mem_of_mem_drop hc)
  have hlength : (d.digitChars.drop (d.digitChars.length - n)).length = n := by
    rw [List.length_drop]
    omega
  have hnumeral := Numeral.point hwhole hfraction (by rw [← List.length_pos_iff]; omega)
  rwa [ofDigits, List.take_append_drop, ofDigitChars_digitChars, hlength, ← hexponent] at hnumeral

/-- A number below one. -/
theorem below_numeral {n : ℕ} (hexponent : d.exponent = -n) (hle : d.digitChars.length ≤ n) :
    Numeral ('0' :: '.' :: (List.replicate (n - d.digitChars.length) '0' ++ d.digitChars)) d := by
  have hdigits : AreDigits d.digitChars := areDigits_toDigits _
  have hnumeral := Numeral.point isWhole_zero
    ((areDigits_zeros (n - d.digitChars.length)).append hdigits) (by simp [digitChars_ne_nil])
  rwa [ofDigits, mk_eq] at hnumeral
  · rw [← List.append_assoc, Nat.ofDigitChars_append, ← List.replicate_one,
      List.replicate_append_replicate, Nat.ofDigitChars_replicate_zero, mul_zero,
      ofDigitChars_digitChars]
  · rw [List.length_append, List.length_replicate, hexponent]
    omega

/-- A number with digits after the point. -/
theorem fraction_numeral (h : d.digits ≠ 0) (hexponent : d.exponent < 0) :
    Numeral d.positional d := by
  obtain ⟨n, hn⟩ := Int.eq_ofNat_of_zero_le (show 0 ≤ -d.exponent by omega)
  have hn' : d.exponent = -n := by omega
  rw [positional, if_neg (by omega)]
  simp only [hn, Int.toNat_natCast]
  split
  · rename_i hlt
    exact between_numeral h (by omega) hn' hlt
  · rename_i hle
    exact below_numeral hn' (by omega)

/-- A number in the notation that has a point or an exponent stands for the number written. -/
theorem general_numeral (h : d.digits = 0 → d.exponent = 0) :
    ∃ d', Numeral d.general d' ∧ d'.value = d.value := by
  rw [general]
  split
  · exact ⟨d, d.withExponent_numeral, rfl⟩
  split
  · rename_i hexponent
    exact positional_numeral h hexponent
  · rename_i hexponent
    have hdigits : d.digits ≠ 0 := fun hd => hexponent (h hd).ge
    exact ⟨d, fraction_numeral hdigits (by omega), rfl⟩

end Decimal

/-! ### Doubles -/

/-- The characters are what is written for a magnitude, that of infinity or of a finite double. -/
inductive SizeText (infinity : String) (b : ℕ) : List Char → Prop where
  | infinite (hb : b = infinityBits) : SizeText infinity b infinity.toList
  | finite (hb : b < infinityBits) : SizeText infinity b (Decimal.shortest b).general

theorem SizeText.le {infinity : String} {b : ℕ} {size : List Char} (h : SizeText infinity b size) :
    b ≤ infinityBits := by
  cases h with
  | infinite hb => exact hb.le
  | finite hb => exact hb.le

theorem toList_signed (x : Float) (infinity : String) (finite : Decimal → List Char) :
    (signed x infinity finite).toList =
      let size := if magnitude x = infinityBits then infinity.toList
        else finite (Decimal.shortest (magnitude x))
      if isNegative x then '-' :: size else size := by
  simp only [signed, apply_ite String.toList, String.toList_append, String.toList_ofList]
  rfl

/-- A double that is a number is written as its magnitude, after its sign. -/
theorem generalText_cases (notANumber infinity : String) (x : Float) :
    (infinityBits < magnitude x ∧ generalText notANumber infinity x = notANumber) ∨
      ∃ size, SizeText infinity (magnitude x) size ∧
        (generalText notANumber infinity x).toList =
          if isNegative x then '-' :: size else size := by
  rw [generalText]
  split
  · rename_i hx
    exact .inl ⟨hx, rfl⟩
  · rename_i hx
    refine .inr ⟨_, ?_, toList_signed x infinity Decimal.general⟩
    split
    · rename_i hinfinite
      exact .infinite hinfinite
    · rename_i hfinite
      exact .finite (Nat.lt_of_le_of_ne (Nat.not_lt.mp hx) hfinite)

end LoxLang
