/-
Printed numbers are read back.

What is printed for a finite double is a number that a source text may have: after the sign it is
one lexeme, and the double nearest to it is the absolute value of the one that was printed.

* `tokensOf_plain` — a plain number is one token, and two with the sign of a negative one;
* `printed_number_reads_back` — the tokens of what is printed, so that no other double is printed
  alike.
-/
import LoxLang.Proofs.Decimal.Positional
import LoxLang.Proofs.Token.Munch

namespace LoxLang

/-! ### Plain numbers -/

section Plain

variable {size : List Char} {v : ℚ} {c : Char}

theorem Plain.matches_number (h : Plain size v) : Matches .number size := by
  cases h with
  | whole hwhole => exact .whole hwhole.ne_nil hwhole.areDigits
  | point hwhole hfraction =>
    exact .fraction hwhole.ne_nil hwhole.areDigits hfraction.ne_nil hfraction.areDigits

theorem Plain.value_lexemeDecimal (h : Plain size v) : (lexemeDecimal size).value = v := by
  cases h with
  | whole hwhole => rw [lexemeDecimal_whole hwhole.areDigits, Decimal.value, zpow_zero, mul_one]
  | point hwhole _ => rw [lexemeDecimal_point hwhole.areDigits]

/-- A number is all of its own lexeme. -/
theorem numberLexeme_of_matches (h : Matches .number size) : numberLexeme size = size :=
  (numberLexeme_isPrefix size).eq_of_length_le (h.length_le_number List.prefix_rfl)

theorem isBlank_of_isDigit (hc : c.isDigit) : isBlank c = false := by
  have hdigit : 48 ≤ c.toNat ∧ c.toNat ≤ 57 := Char.isDigit_iff_toNat.mp hc
  simp [isBlank, inRanges, blankRanges]
  omega

theorem firstPiece_digit (hc : c.isDigit) (cs : List Char) :
    firstPiece c cs = .lexeme .number (numberLexeme (c :: cs)) := by
  have hslash : c ≠ '/' := fun h => absurd (h ▸ hc) (by decide)
  have hquote : c ≠ '"' := fun h => absurd (h ▸ hc) (by decide)
  rw [firstPiece, isBlank_of_isDigit hc, if_neg Bool.false_ne_true, if_neg (by simp [hslash]),
    if_neg (by simpa using hquote), if_pos hc]

theorem Plain.pieces_eq (h : Plain size v) : pieces size = [.lexeme .number size] := by
  have hmatch := h.matches_number
  obtain ⟨c, cs, rfl, hc⟩ := hmatch.exists_cons
  have hfirst := firstPiece_digit hc cs
  rw [numberLexeme_of_matches hmatch] at hfirst
  have hsplit : c :: cs = (firstPiece c cs).chars ++ [] := by
    rw [hfirst, List.append_nil]
    rfl
  rw [pieces_cons hsplit, hfirst]
  rfl

theorem pieces_minus (cs : List Char) : pieces ('-' :: cs) = .lexeme .minus ['-'] :: pieces cs :=
  pieces_cons (c := '-') rfl

/-- What is compared of the tokens of a number: all but their places. -/
def Token.content (t : Token) : Kind × String × Json × Bool :=
  (t.kind, t.lexeme, t.literal, t.terminated)

/-- The tokens of a plain number with a sign in front of it or without one. -/
theorem tokensOf_plain (h : Plain size v) {text : String} {negative : Bool}
    (htext : text.toList = (if negative then ['-'] else []) ++ size) :
    (tokensOf text).map Token.content = (if negative then [(.minus, "-", .null, true)] else []) ++
      [(.number, String.ofList size, .number (lexemeDecimal size).toFloat, true),
        (.endOfFile, "", .null, true)] := by
  cases negative with
  | true =>
    rw [tokensOf, htext, if_pos rfl, List.singleton_append, pieces_minus, h.pieces_eq]
    rfl
  | false =>
    rw [tokensOf, htext, if_neg Bool.false_ne_true, List.nil_append, h.pieces_eq]
    rfl

end Plain

/-! ### Doubles -/

variable {x : Float}

/-- A finite double is printed as its sign and a plain number, to which its absolute value is the
nearest double. -/
theorem positionalText_plain (hx : IsFinite x) : ∃ size v, Plain size v ∧
    (positionalText x).toList = (if isNegative x then ['-'] else []) ++ size ∧
      IsNearest x.abs v ∧ (lexemeDecimal size).toFloat = x.abs := by
  have hle : magnitude x ≤ infinityBits := Nat.le_of_lt hx
  have hplain := Decimal.shortest_plain hx
  have habs : (Decimal.shortest (magnitude x)).toFloat = x.abs := by
    rw [Decimal.toFloat, Decimal.bits_shortest hx, abs_eq_ofBits_magnitude hle]
  refine ⟨_, _, hplain, ?_, ?_, ?_⟩
  · rw [positionalText, if_neg (Nat.not_lt.mpr hle), toList_signed, if_neg (Nat.ne_of_lt hx)]
    cases isNegative x with
    | true => rfl
    | false => rfl
  · rw [← habs]
    exact Decimal.toFloat_isNearest _
  · rw [← habs, Decimal.toFloat, Decimal.bits_congr hplain.value_lexemeDecimal, Decimal.toFloat]

/-- A finite double is known from its sign and its absolute value. -/
theorem eq_of_abs {y : Float} (hx : IsFinite x) (hy : IsFinite y)
    (hsign : isNegative x = isNegative y) (habs : x.abs = y.abs) : x = y := by
  have hx' : magnitude x ≤ infinityBits := Nat.le_of_lt hx
  have hy' : magnitude y ≤ infinityBits := Nat.le_of_lt hy
  refine eq_of_magnitude hx' hy' hsign ?_
  rw [abs_eq_ofBits_magnitude hx', abs_eq_ofBits_magnitude hy'] at habs
  rw [← magnitude_ofBits hx', habs, magnitude_ofBits hy']

/-- A plain number begins with a digit. -/
theorem head?_signed {size : List Char} {v : ℚ} (h : Plain size v) (negative : Bool) :
    ((if negative then ['-'] else []) ++ size).head? = some '-' ↔ negative = true := by
  cases negative with
  | true => exact iff_of_true rfl rfl
  | false =>
    obtain ⟨c, cs, rfl, hc⟩ := h.matches_number.exists_cons
    refine iff_of_false (fun hhead => ?_) Bool.false_ne_true
    obtain rfl : c = '-' := Option.some.inj hhead
    have hdigit : Char.isDigit '-' = true := hc
    exact absurd hdigit (by decide)

/-- Printed numbers are read back.  What is printed for a finite double is a plain number, without
an exponent and without superfluous zeros, which has a sign in front of it exactly if the sign bit
is set.  The tokens of it are the sign, if there is one, and a number whose literal is the absolute
value of the double; and that is the double nearest to what is written.  So finite doubles that are
printed alike are the same. -/
theorem printed_number_reads_back (hx : IsFinite x) :
    ∃ size v, Plain size v ∧
      (positionalText x).toList = (if isNegative x then ['-'] else []) ++ size ∧
      ((positionalText x).toList.head? = some '-' ↔ isNegative x = true) ∧
      (tokensOf (positionalText x)).map Token.content =
        (if isNegative x then [(.minus, "-", .null, true)] else []) ++
          [(.number, String.ofList size, .number x.abs, true), (.endOfFile, "", .null, true)] ∧
      IsNearest x.abs v ∧
      ∀ y, IsFinite y → positionalText y = positionalText x → y = x := by
  obtain ⟨size, v, hplain, htext, hnearest, hliteral⟩ := positionalText_plain hx
  have htokens := tokensOf_plain hplain htext
  rw [hliteral] at htokens
  have hhead := head?_signed hplain (isNegative x)
  rw [← htext] at hhead
  refine ⟨size, v, hplain, htext, hhead, htokens, hnearest, fun y hy halike => ?_⟩
  -- Both have the same text, so their signs are the same, and what comes after them.
  obtain ⟨size', v', hplain', htext', -, hliteral'⟩ := positionalText_plain hy
  have hhead' := head?_signed hplain' (isNegative y)
  rw [← htext', halike, hhead] at hhead'
  have hsign : isNegative y = isNegative x := Bool.eq_iff_iff.mpr hhead'.symm
  rw [halike, htext, hsign] at htext'
  obtain rfl := List.append_cancel_left htext'
  exact eq_of_abs hy hx hsign (hliteral'.symm.trans hliteral)

/-- A number below zero. -/
theorem printed_number_reads_back_of_negative :
    let x : Float := -0.5
    IsFinite x ∧ ∃ size v, Plain size v ∧ (positionalText x).toList = '-' :: size ∧
      ∀ y, IsFinite y → positionalText y = positionalText x → y = x := by
  intro x
  have hx : IsFinite x := by
    rw [IsFinite]
    decide +kernel
  have hnegative : isNegative x = true := by decide +kernel
  obtain ⟨size, v, hplain, htext, -, -, -, hunique⟩ := printed_number_reads_back hx
  rw [hnegative] at htext
  exact ⟨hx, size, v, hplain, htext, hunique⟩

end LoxLang
