/-
Numbers in JSON texts.

What is written for a number is read back as the same number, whatever stands after it that does
not go on with it: `readAtom_integer` for whole numbers and `readAtom_number` for doubles.  Of a
double the digits give back the bit pattern without the sign, and the sign is put in front of the
digits; infinity, and the double that is no number, have names.
-/
import LoxLang.Json.Reader
import LoxLang.Proofs.Decimal.Bits
import LoxLang.Proofs.Decimal.Notation
import LoxLang.Proofs.Decimal.Shortest

namespace LoxLang.Json

/-- A number in front of these characters ends there: none of its parts goes on. -/
def EndsNumber (rest : List Char) : Prop :=
  ∀ c ∈ rest.head?, c.isDigit = false ∧ c ≠ '.' ∧ c ≠ 'e' ∧ c ≠ 'E'

/-! ### Parts of a number -/

section Parts

variable {whole fraction size rest : List Char} {negative : Bool} {sign : Char}

/-- A run of digits ends where the digits end. -/
theorem digits_append (hds : AreDigits whole) (hrest : ∀ c ∈ rest.head?, c.isDigit = false) :
    digits (whole ++ rest) = (whole, rest) := by
  rw [digits, List.span_eq_takeWhile_dropWhile, List.takeWhile_append_of_pos hds,
    List.dropWhile_append_of_pos hds]
  cases rest with
  | nil => simp
  | cons c rest =>
    have hc : ¬c.isDigit = true := by simp [hrest c rfl]
    rw [List.takeWhile_cons_of_neg hc, List.dropWhile_cons_of_neg hc, List.append_nil]

theorem fraction?_of_ne (h : rest.head? ≠ some '.') : fraction? rest = none := by
  unfold fraction?
  split
  · exact absurd rfl h
  · rfl

theorem fraction?_point (hfraction : AreDigits fraction) (hne : fraction ≠ [])
    (hrest : ∀ c ∈ rest.head?, c.isDigit = false) :
    fraction? ('.' :: (fraction ++ rest)) = some (fraction, rest) := by
  rw [fraction?, digits_append hfraction hrest]
  simp [hne]

theorem exponent?_of_ne (h : rest.head? ≠ some 'e') (h' : rest.head? ≠ some 'E') :
    exponent? rest = none := by
  unfold exponent?
  split
  · exact absurd rfl h
  · exact absurd rfl h'
  · rfl

theorem exponent?_power (hsign : PowerSign sign negative) (hsize : AreDigits size)
    (hne : size ≠ []) (hrest : ∀ c ∈ rest.head?, c.isDigit = false) :
    exponent? ('e' :: sign :: (size ++ rest)) = some (numberOf negative size, rest) := by
  cases hsign with
  | plus => simp [exponent?, signedDigits?, digits_append hsize hrest, hne, numberOf]
  | minus => simp [exponent?, signedDigits?, digits_append hsize hrest, hne, numberOf]

/-- The digits before a point are read first. -/
theorem readUnsigned_whole (hwhole : IsWhole whole) (hrest : ∀ c ∈ rest.head?, c.isDigit = false) :
    readUnsigned negative (whole ++ rest) =
      let (fraction, afterFraction) := (fraction? rest).getD ([], rest)
      let (power, afterPower) := (exponent? afterFraction).getD (0, afterFraction)
      if afterPower.length = rest.length then some (.integer (numberOf negative whole), rest)
      else
        let d := Decimal.ofDigits whole fraction
        let x := (Decimal.mk d.digits (d.exponent + power)).toFloat
        some (.number (if negative then -x else x), afterPower) := by
  by_cases hzero : whole.head? = some '0'
  · rw [hwhole.eq_zero hzero, List.singleton_append, readUnsigned]
    simp [numberOf]
  · rw [readUnsigned, digits_append hwhole.areDigits hrest]
    · simp [hwhole.ne_nil, numberOf]
    · intro rest' h
      have hhead : (whole ++ rest).head? = whole.head? :=
        List.head?_append_of_ne_nil _ hwhole.ne_nil
      rw [h] at hhead
      exact hzero hhead.symm

theorem readUnsigned_integer (hwhole : IsWhole whole) (hrest : EndsNumber rest) :
    readUnsigned negative (whole ++ rest) = some (.integer (numberOf negative whole), rest) := by
  have hpoint : rest.head? ≠ some '.' := fun h => (hrest _ h).2.1 rfl
  have hsmall : rest.head? ≠ some 'e' := fun h => (hrest _ h).2.2.1 rfl
  have hlarge : rest.head? ≠ some 'E' := fun h => (hrest _ h).2.2.2 rfl
  rw [readUnsigned_whole hwhole fun c hc => (hrest c hc).1, fraction?_of_ne hpoint]
  simp [exponent?_of_ne hsmall hlarge]

/-- A number with a point or an exponent stands for the double nearest to it. -/
theorem readUnsigned_numeral {cs : List Char} {d : Decimal} (negative : Bool) (h : Numeral cs d)
    (hrest : EndsNumber rest) : readUnsigned negative (cs ++ rest) =
      some (.number (if negative then -d.toFloat else d.toFloat), rest) := by
  have hdigit : ∀ c ∈ rest.head?, c.isDigit = false := fun c hc => (hrest c hc).1
  have hsmall : rest.head? ≠ some 'e' := fun h => (hrest _ h).2.2.1 rfl
  have hlarge : rest.head? ≠ some 'E' := fun h => (hrest _ h).2.2.2 rfl
  cases h with
  | point hwhole hfraction hne =>
    rw [List.append_assoc, List.cons_append, readUnsigned_whole hwhole (by simp),
      fraction?_point hfraction hne hdigit]
    simp [exponent?_of_ne hsmall hlarge]
    omega
  | @power whole fraction size sign negative' hwhole hfraction hsign hsize hne =>
    have hpower := exponent?_power hsign hsize hne hdigit
    rw [List.append_assoc, List.append_assoc]
    cases fraction with
    | nil =>
      show readUnsigned negative (whole ++ ('e' :: sign :: (size ++ rest))) = _
      rw [readUnsigned_whole hwhole (by simp), fraction?_of_ne (by simp)]
      simp [hpower]
      omega
    | cons c cs =>
      show readUnsigned negative (whole ++ ('.' :: (c :: cs ++ ('e' :: sign :: (size ++ rest))))) = _
      rw [readUnsigned_whole hwhole (by simp), fraction?_point hfraction (by simp) (by simp)]
      simp [hpower]
      omega

end Parts

/-! ### Words and numbers -/

section Atoms

variable {rest whole : List Char} {x : Float}

theorem readWord_null : readWord ("null".toList ++ rest) = some (.null, rest) := rfl

theorem readWord_bool (b : Bool) :
    readWord ((if b then "true" else "false").toList ++ rest) = some (.bool b, rest) := by
  cases b <;> rfl

theorem readWord_notANumber :
    readWord ("NaN".toList ++ rest) = some (.number (0.0 / 0.0), rest) := rfl

theorem readWord_infinity :
    readWord ("Infinity".toList ++ rest) = some (.number (1.0 / 0.0), rest) := rfl

theorem readWord_negativeInfinity :
    readWord ("-Infinity".toList ++ rest) = some (.number (-1.0 / 0.0), rest) := rfl

theorem ne_of_isDigit {c c' : Char} (hc : c.isDigit = true) (hc' : c'.isDigit = false) : c' ≠ c := by
  rintro rfl
  rw [hc] at hc'
  cases hc'

/-- No word begins with a digit. -/
theorem readWord_whole (hwhole : IsWhole whole) : readWord (whole ++ rest) = none := by
  obtain ⟨c, cs, rfl⟩ := List.exists_cons_of_ne_nil hwhole.ne_nil
  have hc := hwhole.areDigits c (by simp)
  simp [readWord, namedNumbers, ne_of_isDigit hc]

/-- The only word that begins with a sign goes on with a letter. -/
theorem readWord_negative (hwhole : IsWhole whole) : readWord ('-' :: (whole ++ rest)) = none := by
  obtain ⟨c, cs, rfl⟩ := List.exists_cons_of_ne_nil hwhole.ne_nil
  have hc := hwhole.areDigits c (by simp)
  simp [readWord, namedNumbers, ne_of_isDigit hc]

theorem exists_whole {cs : List Char} {d : Decimal} (h : Numeral cs d) :
    ∃ whole more, IsWhole whole ∧ cs = whole ++ more := by
  cases h with
  | point hwhole => exact ⟨_, _, hwhole, rfl⟩
  | power hwhole => exact ⟨_, _, hwhole, rfl⟩

theorem readAtom_word {j : Json} (cs : List Char) (h : readWord cs = some (j, rest)) :
    readAtom cs = some (j, rest) := by
  unfold readAtom
  rw [h]
  rfl

/-- What begins with a digit is a number. -/
theorem readAtom_whole (hwhole : IsWhole whole) :
    readAtom (whole ++ rest) = readUnsigned false (whole ++ rest) := by
  rw [readAtom, readWord_whole hwhole, Option.none_or]
  obtain ⟨c, cs, rfl⟩ := List.exists_cons_of_ne_nil hwhole.ne_nil
  intro rest' h
  injection h with hc
  exact ne_of_isDigit (hwhole.areDigits c (by simp)) rfl hc.symm

theorem readAtom_negative (hwhole : IsWhole whole) :
    readAtom ('-' :: (whole ++ rest)) = readUnsigned true (whole ++ rest) := by
  rw [readAtom, readWord_negative hwhole]
  rfl

/-- A whole number is read back. -/
theorem readAtom_integer (i : Int) (hrest : EndsNumber rest) :
    readAtom ((toString i).toList ++ rest) = some (.integer i, rest) := by
  have hwhole := isWhole_toDigits i.natAbs
  have hnumber (negative : Bool) : numberOf negative (Nat.toDigits 10 i.natAbs) =
      if negative then -(i.natAbs : Int) else i.natAbs := by
    rw [numberOf, Nat.ofDigitChars_ten_toDigits]
  rw [toList_toString]
  split
  · rw [List.cons_append, readAtom_negative hwhole, readUnsigned_integer hwhole hrest, hnumber,
      if_pos rfl, show -(i.natAbs : Int) = i by omega]
  · rw [readAtom_whole hwhole, readUnsigned_integer hwhole hrest, hnumber,
      if_neg Bool.false_ne_true, show (i.natAbs : Int) = i by omega]

/-- What is written for a magnitude is read as its double, and with a sign as the opposite one. -/
structure ReadsAs (size rest : List Char) (y : Float) : Prop where
  positive : readAtom (size ++ rest) = some (.number y, rest)
  negative : readAtom ('-' :: (size ++ rest)) = some (.number (-y), rest)

theorem infinity_readsAs (rest : List Char) :
    ReadsAs "Infinity".toList rest (.ofBits (.ofNat infinityBits)) := by
  have hinfinity : (1.0 / 0.0 : Float) = .ofBits (.ofNat infinityBits) := by decide +kernel
  have hopposite : (-1.0 / 0.0 : Float) = -.ofBits (.ofNat infinityBits) := by decide +kernel
  constructor
  · rw [← hinfinity]
    exact readAtom_word _ readWord_infinity
  · rw [← hopposite]
    exact readAtom_word _ readWord_negativeInfinity

/-- The shortest digits of a finite double. -/
theorem shortest_readsAs {b : ℕ} (hb : b < infinityBits) (hrest : EndsNumber rest) :
    ReadsAs (Decimal.shortest b).general rest (.ofBits (.ofNat b)) := by
  obtain ⟨d, hd, hvalue⟩ := Decimal.general_numeral (Decimal.exponent_shortest hb)
  have hfloat : d.toFloat = .ofBits (.ofNat b) := by
    rw [Decimal.toFloat, Decimal.bits_congr hvalue, Decimal.bits_shortest hb]
  have hread (negative : Bool) := readUnsigned_numeral negative hd hrest
  obtain ⟨whole, more, hwhole, hcs⟩ := exists_whole hd
  rw [hcs, List.append_assoc, hfloat] at hread
  rw [hcs]
  constructor
  · rw [List.append_assoc, readAtom_whole hwhole]
    exact hread false
  · rw [List.append_assoc, readAtom_negative hwhole]
    exact hread true

/-- A double is read back. -/
theorem readAtom_number (x : Float) (hrest : EndsNumber rest) :
    readAtom ((generalText "NaN" "Infinity" x).toList ++ rest) = some (.number x, rest) := by
  rcases generalText_cases "NaN" "Infinity" x with ⟨hx, htext⟩ | ⟨size, hsize, htext⟩
  · rw [htext, eq_notANumber hx]
    exact readAtom_word _ readWord_notANumber
  · have hread : ReadsAs size rest (.ofBits (.ofNat (magnitude x))) := by
      cases hsize with
      | infinite hb =>
        rw [hb]
        exact infinity_readsAs rest
      | finite hb => exact shortest_readsAs hb hrest
    rw [htext]
    cases hnegative : isNegative x with
    | true =>
      have h := hread.negative
      rwa [neg_ofBits_magnitude hsize.le hnegative] at h
    | false =>
      have h := hread.positive
      rwa [ofBits_magnitude hnegative] at h

end Atoms

end LoxLang.Json
