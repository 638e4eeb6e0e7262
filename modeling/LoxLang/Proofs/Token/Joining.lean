/-
The tokens of texts that are joined by line breaks.

A line break ends whatever piece is in front of it, unless that is a string without a closing quote.
So the pieces of a text with another one below it are those of the first text, the line break, and
those of the second (`pieces_break`).  The tokens are those of both texts, where the second ones
stand so many lines further down and the end of the first text is left out (`tokensOf_join`).
-/
import LoxLang.Proofs.Token.Tiling

namespace LoxLang

/-! ### Pieces in front of a line break -/

/-- The piece is no string that has been left open. -/
def Piece.Closed (piece : Piece) : Prop := ∀ cs, piece = .lexeme .string cs → isClosed cs

section

variable {p : Char → Bool} {b c : Char} {cs : List Char}

theorem takeWhile_break (hb : p b = false) (cs ds : List Char) :
    (cs ++ b :: ds).takeWhile p = cs.takeWhile p := by
  rw [List.takeWhile_append, List.takeWhile_cons_of_neg (by simp [hb]), List.append_nil]
  split
  · rename_i hlength
    exact ((List.takeWhile_prefix p).eq_of_length hlength).symm
  · rfl

theorem dropWhile_break (hb : p b = false) (cs ds : List Char) :
    (cs ++ b :: ds).dropWhile p = cs.dropWhile p ++ b :: ds := by
  rw [List.dropWhile_append, List.dropWhile_cons_of_neg (by simp [hb])]
  split
  · rename_i hempty
    rw [List.isEmpty_iff.mp hempty, List.nil_append]
  · rfl

/-- A string with a closing quote has come to its end, whatever comes after it. -/
theorem stringLexeme_append (h : isClosed (stringLexeme cs)) (ds : List Char) :
    stringLexeme (cs ++ ds) = stringLexeme cs := by
  have hrest : cs.dropWhile (· != '"') ≠ [] := by
    intro hnil
    -- Without a closing quote, the last character of the lexeme is no quote.
    have hall := List.dropWhile_eq_nil_iff.mp hnil
    rw [stringLexeme, hnil, List.takeWhile_eq_self_iff.mpr hall, isClosed] at h
    cases cs using List.reverseRecOn with
    | nil => simp at h
    | append_singleton cs c =>
      rw [List.take_nil, List.append_nil, ← List.cons_append, List.getLast?_concat] at h
      have hc := hall c (by simp)
      simp_all
  have hlength : (cs.takeWhile (· != '"')).length ≠ cs.length := by
    intro hlength
    have hsplit := congrArg List.length (List.takeWhile_append_dropWhile (p := (· != '"')) (l := cs))
    rw [List.length_append, hlength] at hsplit
    exact hrest (List.length_eq_zero_iff.mp (by omega))
  rw [stringLexeme, stringLexeme, List.takeWhile_append, if_neg hlength, List.dropWhile_append,
    if_neg (by simpa using hrest), List.take_append_of_le_length (List.length_pos_iff.mpr hrest)]

theorem numberLexeme_break (cs ds : List Char) :
    numberLexeme (cs ++ '\n' :: ds) = numberLexeme cs := by
  have hdigit : Char.isDigit '\n' = false := by decide
  unfold numberLexeme
  rw [takeWhile_break hdigit, dropWhile_break hdigit]
  generalize cs.dropWhile Char.isDigit = after
  cases after with
  | nil => rfl
  | cons d after =>
    have hfraction := takeWhile_break hdigit after ds
    rw [List.cons_append]
    by_cases hd : d = '.'
    · subst hd
      simp only [hfraction]
    · split <;> split <;> simp_all

theorem symbolLexeme_break (c : Char) (cs ds : List Char) :
    symbolLexeme c (cs ++ '\n' :: ds) = symbolLexeme c cs := by
  unfold symbolLexeme
  rcases symbolKinds c with _ | ⟨kind, _ | withEqual⟩
  · rfl
  · rfl
  · cases cs with
    | nil => rfl
    | cons d cs =>
      dsimp only [List.cons_append]
      split <;> split <;> simp_all

/-- A line break does not become a part of the piece in front of it. -/
theorem firstPiece_break (h : (firstPiece c cs).Closed) (ds : List Char) :
    firstPiece c (cs ++ '\n' :: ds) = firstPiece c cs := by
  have hcomment : ((cs ++ '\n' :: ds).head? == some '/') = (cs.head? == some '/') := by
    cases cs <;> rfl
  have hlexeme : firstPiece c cs = .lexeme .string (stringLexeme cs) → isClosed (stringLexeme cs) :=
    h _
  revert hlexeme
  unfold firstPiece
  rw [hcomment, ← List.cons_append]
  intro hlexeme
  split
  · rfl
  split
  · rw [takeWhile_break rfl]
  split
  · rw [stringLexeme_append (hlexeme ?_)]
    rw [if_neg ‹_›, if_neg ‹_›, if_pos ‹_›]
  split
  · rw [numberLexeme_break]
  split
  · rw [takeWhile_break (by decide)]
  · exact symbolLexeme_break c cs ds

end

/-- The pieces of a text with another one below it. -/
theorem pieces_break {cs : List Char} (h : ∀ piece ∈ pieces cs, piece.Closed) (ds : List Char) :
    pieces (cs ++ '\n' :: ds) = pieces cs ++ .gap ['\n'] :: pieces ds := by
  revert h
  refine pieces_induction (motive := fun cs ps => (∀ piece ∈ ps, piece.Closed) →
    pieces (cs ++ '\n' :: ds) = ps ++ .gap ['\n'] :: pieces ds) ?_ ?_ cs
  · intro _
    exact pieces_cons (c := '\n') rfl
  · intro c cs rest hsplit ih h
    obtain ⟨hfirst, hrest⟩ := List.forall_mem_cons.mp h
    have hbreak := firstPiece_break hfirst ds
    have hsplit' : c :: (cs ++ '\n' :: ds)
        = (firstPiece c (cs ++ '\n' :: ds)).chars ++ (rest ++ '\n' :: ds) := by
      rw [hbreak, ← List.append_assoc, ← hsplit, List.cons_append]
    rw [List.cons_append, pieces_cons hsplit', hbreak, ih hrest, List.cons_append]

/-! ### Tokens further down -/

/-- The same token, so many lines further down. -/
def Token.down (n : Nat) (t : Token) : Token := { t with line := t.line + n }

/-- The same place, so many lines further down. -/
def Place.down (n : Nat) (p : Place) : Place := { p with line := p.line + n }

@[simp] theorem Token.down_zero (t : Token) : t.down 0 = t := rfl

theorem Token.down_down (t : Token) (n k : Nat) : (t.down n).down k = t.down (k + n) := by
  rw [down, down, down, Token.mk.injEq]
  refine ⟨rfl, rfl, ?_, rfl, rfl, rfl⟩
  dsimp only
  omega

theorem Place.next_down (p : Place) (n : Nat) (c : Char) :
    (p.down n).next c = (p.next c).down n := by
  rw [next, next]
  split
  · rw [down, down, Place.mk.injEq]
    exact ⟨Nat.add_right_comm .., rfl⟩
  · rfl

theorem Place.after_down (p : Place) (n : Nat) (cs : List Char) :
    (p.down n).after cs = (p.after cs).down n := by
  induction cs generalizing p with
  | nil => rfl
  | cons c cs ih =>
    show ((p.down n).next c).after cs = ((p.next c).after cs).down n
    rw [next_down, ih]

theorem place_down (p : Place) (n : Nat) (ps : List Piece) :
    place (p.down n) ps = (place p ps).map (Token.down n) := by
  induction ps generalizing p with
  | nil => rfl
  | cons piece ps ih =>
    cases piece with
    | gap cs => rw [place, place, Place.after_down, ih]
    | lexeme kind cs =>
      rw [place, place, Place.after_down, ih]
      rfl

theorem place_ne_nil (p : Place) (ps : List Piece) : place p ps ≠ [] := by
  intro h
  have hlast := place_getLast? p ps
  rw [h] at hlast
  cases hlast

/-- Where more pieces come after some, the text does not end in between. -/
theorem place_append (p : Place) (ps qs : List Piece) :
    place p (ps ++ qs) = (place p ps).dropLast ++ place (p.after (ps.flatMap Piece.chars)) qs := by
  induction ps generalizing p with
  | nil => rfl
  | cons piece ps ih =>
    rw [List.flatMap_cons, Place.after_append]
    cases piece with
    | gap cs => exact ih _
    | lexeme kind cs =>
      rw [List.cons_append, place, place, ih, List.dropLast_cons_of_ne_nil (place_ne_nil _ _)]
      rfl

theorem mem_place {p : Place} {ps : List Piece} {kind : Kind} {cs : List Char}
    (h : .lexeme kind cs ∈ ps) : ∃ q, Token.ofLexeme kind cs q ∈ place p ps := by
  induction ps generalizing p with
  | nil => exact absurd h List.not_mem_nil
  | cons piece ps ih =>
    rcases List.mem_cons.mp h with rfl | h
    · exact ⟨p, List.mem_cons_self⟩
    · obtain ⟨q, hq⟩ := ih (p := p.after piece.chars) h
      cases piece with
      | gap _ => exact ⟨q, hq⟩
      | lexeme _ _ => exact ⟨q, List.mem_cons_of_mem _ hq⟩

/-! ### Joined texts -/

/-- The number of lines of a text. -/
def lineCount (s : String) : Nat := s.toList.count '\n' + 1

theorem start_after_break (cs : List Char) :
    Place.start.after (cs ++ ['\n']) = Place.start.down (cs.count '\n' + 1) := by
  rw [Place.after_start, lastLine_concat, if_pos rfl, List.count_append, Place.down, Place.start]
  simp

/-- No string among the tokens has been left open. -/
def StringsEnd (tokens : List Token) : Prop := ∀ t ∈ tokens, t.kind = .string → t.terminated

theorem StringsEnd.closed {s : String} (h : StringsEnd (tokensOf s)) :
    ∀ piece ∈ pieces s.toList, piece.Closed := by
  rintro piece hpiece cs rfl
  obtain ⟨q, hq⟩ := mem_place (p := .start) hpiece
  exact h _ hq rfl

/-- The tokens of a text with another one below it. -/
theorem tokensOf_join {s : String} (h : StringsEnd (tokensOf s)) (rest : String) :
    tokensOf (s ++ "\n" ++ rest)
      = (tokensOf s).dropLast ++ (tokensOf rest).map (Token.down (lineCount s)) := by
  have htext : (s ++ "\n" ++ rest).toList = s.toList ++ '\n' :: rest.toList := by
    rw [String.toList_append, String.toList_append, List.append_assoc]
    rfl
  rw [tokensOf, htext, pieces_break h.closed, place_append, flatMap_pieces, place,
    ← Place.after_append, start_after_break, place_down]
  rfl

end LoxLang
