/-
How a text is cut into pieces.

* `firstPiece_append` — the first piece is a part of the text, with which the text begins, and
  `firstPiece_ne_nil` — it has a character at least.
* `pieces_cons` — after the first piece, the rest of the text is cut.
* `pieces_induction` — so what is to be shown of the pieces of a text may be assumed of the
  pieces of the rest.
-/
import LoxLang.Token.Scan
import Mathlib.Data.List.Basic

namespace LoxLang

/-! ### The first piece -/

theorem stringLexeme_isPrefix (cs : List Char) : stringLexeme cs <+: '"' :: cs := by
  rw [stringLexeme, List.prefix_cons_inj]
  conv_rhs => rw [← List.takeWhile_append_dropWhile (p := (· != '"')) (l := cs)]
  rw [List.prefix_append_right_inj]
  exact List.take_prefix ..

theorem numberLexeme_isPrefix (cs : List Char) : numberLexeme cs <+: cs := by
  have hwhole : cs.takeWhile Char.isDigit <+: cs := List.takeWhile_prefix _
  unfold numberLexeme
  dsimp only
  split
  · rename_i rest hrest
    split
    · exact hwhole
    · -- A fraction goes on where the whole part and the point have ended.
      conv_rhs => rw [← List.takeWhile_append_dropWhile (p := Char.isDigit) (l := cs), hrest]
      rw [List.prefix_append_right_inj, List.prefix_cons_inj]
      exact List.takeWhile_prefix _
  · exact hwhole

theorem symbolLexeme_isPrefix (c : Char) (cs : List Char) :
    (symbolLexeme c cs).chars <+: c :: cs := by
  have hone : [c] <+: c :: cs := ⟨cs, rfl⟩
  unfold symbolLexeme
  split
  · exact hone
  · exact hone
  · split
    · rename_i rest
      exact ⟨rest, rfl⟩
    · exact hone

theorem firstPiece_isPrefix (c : Char) (cs : List Char) :
    (firstPiece c cs).chars <+: c :: cs := by
  unfold firstPiece
  split
  · exact ⟨cs, rfl⟩
  split
  · exact List.takeWhile_prefix _
  split
  · rename_i hquote
    obtain rfl : c = '"' := by simpa using hquote
    exact stringLexeme_isPrefix cs
  split
  · exact numberLexeme_isPrefix (c :: cs)
  split
  · exact List.takeWhile_prefix _
  · exact symbolLexeme_isPrefix c cs

theorem takeWhile_cons_ne_nil {p : Char → Bool} {c : Char} {cs : List Char} (h : p c) :
    (c :: cs).takeWhile p ≠ [] := by
  simp [h]

theorem numberLexeme_ne_nil {c : Char} {cs : List Char} (h : c.isDigit) :
    numberLexeme (c :: cs) ≠ [] := by
  have hwhole : (c :: cs).takeWhile Char.isDigit ≠ [] := takeWhile_cons_ne_nil h
  unfold numberLexeme
  dsimp only
  split
  · split
    · exact hwhole
    · simp
  · exact hwhole

theorem symbolLexeme_ne_nil (c : Char) (cs : List Char) : (symbolLexeme c cs).chars ≠ [] := by
  unfold symbolLexeme
  split
  · exact List.cons_ne_nil _ _
  · exact List.cons_ne_nil _ _
  · split
    · exact List.cons_ne_nil _ _
    · exact List.cons_ne_nil _ _

theorem isWordPart_of_isWordStart {c : Char} (h : isWordStart c) : isWordPart c := by
  simp only [isWordStart, isWordPart, Char.isAlphanum, Bool.or_eq_true] at h ⊢
  exact h.imp_left .inl

theorem firstPiece_ne_nil (c : Char) (cs : List Char) : (firstPiece c cs).chars ≠ [] := by
  unfold firstPiece
  split
  · exact List.cons_ne_nil _ _
  split
  · rename_i hcomment
    obtain rfl : c = '/' := by
      rw [Bool.and_eq_true] at hcomment
      simpa using hcomment.1
    exact takeWhile_cons_ne_nil (c := '/') (p := (· != '\n')) (by decide)
  split
  · exact List.cons_ne_nil _ _
  split
  · exact numberLexeme_ne_nil ‹_›
  split
  · exact takeWhile_cons_ne_nil (isWordPart_of_isWordStart ‹_›)
  · exact symbolLexeme_ne_nil c cs

/-- A text begins with its first piece. -/
theorem firstPiece_append (c : Char) (cs : List Char) :
    c :: cs = (firstPiece c cs).chars ++ (c :: cs).drop (firstPiece c cs).chars.length := by
  obtain ⟨rest, hrest⟩ := firstPiece_isPrefix c cs
  rw [← hrest, List.drop_left]

/-! ### All pieces -/

theorem length_drop_firstPiece (c : Char) (cs : List Char) :
    ((c :: cs).drop (firstPiece c cs).chars.length).length ≤ cs.length := by
  have hpos := List.length_pos_iff.mpr (firstPiece_ne_nil c cs)
  rw [List.length_drop, List.length_cons]
  omega

/-- Any bound that is not less than the number of characters gives the same pieces. -/
theorem piecesUpTo_of_le {n : Nat} {cs : List Char} (h : cs.length ≤ n) :
    piecesUpTo n cs = pieces cs := by
  rw [pieces]
  -- Both bounds are large enough for the rest of the text, so the cut goes on alike.
  suffices hboth : ∀ k, cs.length ≤ k → piecesUpTo n cs = piecesUpTo k cs from hboth _ (Nat.le_refl _)
  intro k hk
  induction n generalizing cs k with
  | zero =>
    obtain rfl := List.length_eq_zero_iff.mp (Nat.le_zero.mp h)
    cases k <;> rfl
  | succ n ih =>
    cases cs with
    | nil => cases k <;> rfl
    | cons c cs =>
      obtain ⟨k, rfl⟩ : ∃ j, k = j + 1 := ⟨k - 1, by rw [List.length_cons] at hk; omega⟩
      have hrest := length_drop_firstPiece c cs
      rw [List.length_cons] at h hk
      rw [piecesUpTo, piecesUpTo, ih (by omega) k (by omega)]

/-- After the first piece of a text come those of the rest. -/
theorem pieces_cons {c : Char} {cs rest : List Char}
    (h : c :: cs = (firstPiece c cs).chars ++ rest) :
    pieces (c :: cs) = firstPiece c cs :: pieces rest := by
  have hdrop : (c :: cs).drop (firstPiece c cs).chars.length = rest := by
    conv_lhs => rw [h]
    exact List.drop_left
  have hlength := length_drop_firstPiece c cs
  rw [pieces, List.length_cons, piecesUpTo, piecesUpTo_of_le hlength, hdrop]

/-- What holds of the pieces of a text if it holds of those of the rest after the first one holds
of the pieces of every text. -/
theorem pieces_induction {motive : List Char → List Piece → Prop} (nil : motive [] [])
    (cons : ∀ c cs rest, c :: cs = (firstPiece c cs).chars ++ rest →
      motive rest (pieces rest) → motive (c :: cs) (firstPiece c cs :: pieces rest))
    (cs : List Char) : motive cs (pieces cs) := by
  induction hn : cs.length using Nat.strongRecOn generalizing cs with
  | ind n ih =>
    cases cs with
    | nil => exact nil
    | cons c cs =>
      have hsplit := firstPiece_append c cs
      have hlength := length_drop_firstPiece c cs
      rw [pieces_cons hsplit]
      refine cons c cs _ hsplit (ih _ ?_ _ rfl)
      rw [List.length_cons] at hn
      omega

/-- The pieces of a text are the whole text. -/
theorem flatMap_pieces (cs : List Char) : (pieces cs).flatMap Piece.chars = cs := by
  refine pieces_induction (motive := fun cs ps => ps.flatMap Piece.chars = cs) rfl ?_ cs
  intro c cs rest hsplit ih
  rw [List.flatMap_cons, ih, ← hsplit]

end LoxLang
