/-
Lexemes are cut off again.

A lexeme is the longest match in front of the rest of its text, and so it is in front of nothing:
no pattern matches more of less text.  So each lexeme is cut off again when it stands alone, and a
line break does not become a part of it, unless it is a string without a closing quote; but that one
comes last.

* `Longest.unique` — there is one longest match at most;
* `firstPiece_again` — a lexeme that stands alone is cut off as it was;
* `lexemes_relex` — and so are all of them, one on a line.
-/
import LoxLang.Proofs.Token.Joining
import LoxLang.Proofs.Token.Munch
import LoxLang.Proofs.Tree.Likeness

namespace LoxLang

/-! ### Only one longest match -/

section

variable {pattern : Pattern} {kind kind' : Kind} {lexeme lexeme' text : List Char}

/-- A lexeme of a pattern has one kind only. -/
theorem Pattern.Gives.unique (h : pattern.Gives lexeme kind) (h' : pattern.Gives lexeme kind') :
    kind = kind' := by
  cases pattern with
  | operator k => exact h.trans h'.symm
  | number | string => exact h.trans h'.symm
  | word =>
    by_cases hnone : ∀ text k, (text, k) ∈ keywords → lexeme ≠ text.toList
    · rw [h.2.mpr hnone, h'.2.mpr hnone]
    · push Not at hnone
      obtain ⟨text, k, hmem, hword⟩ := hnone
      rw [(h.1 text k hmem).mpr hword, (h'.1 text k hmem).mpr hword]

theorem Matches.operator_unique (h : Matches (.operator kind) text)
    (h' : Matches (.operator kind') text) : kind = kind' := by
  have hoperators : ∀ op ∈ operators, ∀ op' ∈ operators, op.1.toList = op'.1.toList →
      op.2 = op'.2 := by
    decide
  obtain ⟨name, hname, hop⟩ : ∃ name : String, name.toList = text ∧ (name, kind) ∈ operators := by
    cases h with
    | operator hop => exact ⟨_, rfl, hop⟩
  cases h' with
  | operator hop' => exact hoperators _ hop _ hop' hname

/-- Whatever patterns match a lexeme, it has one kind only. -/
theorem Matches.kind_unique {pattern' : Pattern} (h : Matches pattern text)
    (h' : Matches pattern' text) (hgives : pattern.Gives text kind)
    (hgives' : pattern'.Gives text kind') : kind = kind' := by
  obtain ⟨c, cs, htext, hstart⟩ := h.exists_cons
  obtain ⟨c', cs', htext', hstart'⟩ := h'.exists_cons
  obtain ⟨rfl, -⟩ := List.cons.inj (htext.symm.trans htext')
  rcases hstart.unique hstart' with rfl | ⟨k, k', rfl, rfl⟩
  · exact hgives.unique hgives'
  · calc kind = k := hgives
      _ = k' := h.operator_unique h'
      _ = kind' := hgives'.symm

/-- There is one longest match at most at the beginning of a text. -/
theorem Longest.unique (h : Longest kind lexeme text) (h' : Longest kind' lexeme' text)
    (hpart : lexeme <+: text) (hpart' : lexeme' <+: text) : kind = kind' ∧ lexeme = lexeme' := by
  by_cases herror : kind = .error
  · have herror' : kind' = .error := by
      by_contra hkind'
      obtain ⟨pattern, hmatch, -⟩ := h'.matched hkind'
      exact h.unmatched herror pattern _ hmatch hpart'
    obtain ⟨c, rfl⟩ := h.single herror
    obtain ⟨c', rfl⟩ := h'.single herror'
    have hsame := (List.prefix_of_prefix_length_le hpart hpart' (Nat.le_refl 1)).eq_of_length rfl
    exact ⟨herror.trans herror'.symm, hsame⟩
  · have herror' : kind' ≠ .error := by
      intro hkind'
      obtain ⟨pattern, hmatch, -⟩ := h.matched herror
      exact h'.unmatched hkind' pattern _ hmatch hpart
    obtain ⟨pattern, hmatch, hgives⟩ := h.matched herror
    obtain ⟨pattern', hmatch', hgives'⟩ := h'.matched herror'
    have hle := h'.longest herror' pattern _ hmatch hpart
    have hge := h.longest herror pattern' _ hmatch' hpart'
    obtain rfl : lexeme = lexeme' :=
      (List.prefix_of_prefix_length_le hpart hpart' hle).eq_of_length (Nat.le_antisymm hle hge)
    exact ⟨hmatch.kind_unique hmatch' hgives hgives', rfl⟩

/-- Where the rest of the text is taken away, the longest match is still the longest. -/
theorem Longest.alone (h : Longest kind lexeme text) (hpart : lexeme <+: text) :
    Longest kind lexeme lexeme where
  matched := h.matched
  longest _ _ _ _ hbegins := hbegins.length_le
  single := h.single
  unmatched herror pattern part hmatch hbegins :=
    h.unmatched herror pattern part hmatch (hbegins.trans hpart)

end

/-! ### A lexeme that stands alone -/

section

variable {kind : Kind} {c : Char} {cs gap lexeme rest : List Char}

/-- A gap begins with white space or with two slashes. -/
theorem gap_begins (h : firstPiece c cs = .gap gap) : isBlank c ∨ ['/', '/'] <+: c :: cs := by
  unfold firstPiece at h
  split at h
  · exact .inl ‹_›
  split at h
  · rename_i hcomment
    rw [Bool.and_eq_true, beq_iff_eq, beq_iff_eq] at hcomment
    obtain ⟨rfl, hcs⟩ := hcomment
    obtain ⟨tail, rfl⟩ := List.head?_eq_some_iff.mp hcs
    exact .inr ⟨tail, rfl⟩
  split at h
  · cases h
  split at h
  · cases h
  split at h
  · cases h
  · exact absurd h (symbolLexeme_ne_gap c cs gap)

/-- A lexeme that stands alone is cut off as it was in front of the rest of its text. -/
theorem firstPiece_again (h : firstPiece c cs = .lexeme kind lexeme) :
    ∃ ls, lexeme = c :: ls ∧ firstPiece c ls = .lexeme kind lexeme := by
  have hpart : lexeme <+: c :: cs := by
    have hpart := firstPiece_isPrefix c cs
    rwa [h] at hpart
  obtain ⟨ls, rfl⟩ : ∃ ls, lexeme = c :: ls := by
    have hne := firstPiece_ne_nil c cs
    rw [h] at hne
    obtain ⟨d, ls, rfl⟩ := List.exists_cons_of_ne_nil hne
    obtain ⟨rfl, -⟩ := List.cons_prefix_cons.mp hpart
    exact ⟨ls, rfl⟩
  refine ⟨ls, rfl, ?_⟩
  cases hagain : firstPiece c ls with
  | gap gap =>
    obtain ⟨hblank, hcomment⟩ := no_gap_of_lexeme h
    rcases gap_begins hagain with hblank' | hcomment'
    · rw [hblank] at hblank'
      cases hblank'
    · exact absurd (hcomment'.trans hpart) hcomment
  | lexeme kind' lexeme' =>
    have hpart' := firstPiece_isPrefix c ls
    rw [hagain] at hpart'
    obtain ⟨rfl, rfl⟩ := (longest_firstPiece hagain).unique ((longest_firstPiece h).alone hpart)
      hpart' List.prefix_rfl
    rfl

theorem pieces_again (h : firstPiece c cs = .lexeme kind lexeme) :
    pieces lexeme = [.lexeme kind lexeme] := by
  obtain ⟨ls, rfl, hagain⟩ := firstPiece_again h
  have hsplit : c :: ls = (firstPiece c ls).chars ++ [] := by
    rw [hagain, List.append_nil]
    rfl
  rw [pieces_cons hsplit, hagain]
  rfl

/-- A string without a closing quote has no text after it. -/
theorem closed_firstPiece (h : firstPiece c cs = .lexeme kind lexeme)
    (hsplit : c :: cs = lexeme ++ rest) (hrest : rest ≠ []) :
    (Piece.lexeme kind lexeme).Closed := by
  rintro chars ⟨⟩
  by_contra hopened
  exact hrest ((string_firstPiece h hsplit).2.2 (by simpa using hopened))

end

/-! ### One lexeme on a line -/

/-- The lexemes among some pieces. -/
def lexemesIn : List Piece → List (List Char)
  | [] => []
  | .gap _ :: ps => lexemesIn ps
  | .lexeme _ cs :: ps => cs :: lexemesIn ps

/-- The lexemes among some pieces, one on a line. -/
def onLines (ps : List Piece) : List Char := ['\n'].intercalate (lexemesIn ps)

/-- The tokens of the lexemes, one on a line, are those of the text but for their places. -/
theorem onLines_sameText (cs : List Char) (p q : Place) :
    List.Forall₂ Token.SameText (place p (pieces (onLines (pieces cs)))) (place q (pieces cs)) := by
  refine pieces_induction (motive := fun _ ps => ∀ p q,
    List.Forall₂ Token.SameText (place p (pieces (onLines ps))) (place q ps)) ?_ ?_ cs p q
  · intro p q
    exact .cons ⟨rfl, rfl, rfl, rfl⟩ .nil
  intro c cs rest hsplit ih p q
  cases hpiece : firstPiece c cs with
  | gap gap => exact ih p _
  | lexeme kind lexeme =>
    rw [hpiece] at hsplit
    have hagain := pieces_again hpiece
    have hhead : ∀ p, (Token.ofLexeme kind lexeme p).SameText (Token.ofLexeme kind lexeme q) :=
      fun _ => ⟨rfl, rfl, rfl, rfl⟩
    cases hlexemes : lexemesIn (pieces rest) with
    | nil =>
      have htext : onLines (.lexeme kind lexeme :: pieces rest) = lexeme := by
        rw [onLines, lexemesIn, hlexemes, List.intercalate_singleton]
      have hnothing : onLines (pieces rest) = [] := by
        rw [onLines, hlexemes, List.intercalate_nil]
      have hrest := ih (p.after lexeme) (q.after lexeme)
      rw [hnothing] at hrest
      rw [htext, hagain]
      exact .cons (hhead p) hrest
    | cons next others =>
      have htext : onLines (.lexeme kind lexeme :: pieces rest)
          = lexeme ++ '\n' :: onLines (pieces rest) := by
        rw [onLines, lexemesIn, hlexemes, List.intercalate_cons_cons, onLines, hlexemes,
          List.append_assoc]
        rfl
      have hrest : rest ≠ [] := by
        rintro rfl
        cases hlexemes
      have hclosed : ∀ piece ∈ pieces lexeme, piece.Closed := by
        rw [hagain]
        exact List.forall_mem_singleton.mpr (closed_firstPiece hpiece hsplit hrest)
      rw [htext, pieces_break hclosed, hagain]
      exact .cons (hhead p) (ih _ _)

/-- The lexemes of the tokens of a source text, without the one that ends it. -/
def lexemesOf (source : String) : List String :=
  ((tokensOf source).filter (·.kind ≠ .endOfFile)).map Token.lexeme

theorem lexemes_place (p : Place) {ps : List Piece} (h : ∀ piece ∈ ps, piece.GoesOn) :
    ((place p ps).filter (·.kind ≠ .endOfFile)).map (·.lexeme.toList)
      = lexemesIn ps := by
  induction ps generalizing p with
  | nil => rfl
  | cons piece ps ih =>
    obtain ⟨hpiece, hps⟩ := List.forall_mem_cons.mp h
    cases piece with
    | gap cs => exact ih _ hps
    | lexeme kind cs =>
      have hkept : (Token.ofLexeme kind cs p).kind ≠ .endOfFile := hpiece
      have hlexeme : (Token.ofLexeme kind cs p).lexeme.toList = cs := String.toList_ofList
      rw [place, List.filter_cons, if_pos (decide_eq_true hkept), List.map_cons, ih _ hps, hlexeme,
        lexemesIn]

theorem toList_join_lexemesOf (source : String) :
    ("\n".intercalate (lexemesOf source)).toList = onLines (pieces source.toList) := by
  have hgoesOn : ∀ piece ∈ pieces source.toList, piece.GoesOn := piecesUpTo_goesOn _ _
  have hlexemes := lexemes_place .start hgoesOn
  rw [String.toList_intercalate, lexemesOf, List.map_map, onLines, ← hlexemes]
  rfl

/-- Lexemes are cut off again.  The text that has the lexemes of the tokens of a source text in
order, one on a line, has the same tokens but for their places: the same kinds, lexemes and
literals, and the same strings that lack a closing quote. -/
theorem lexemes_relex (source : String) :
    List.Forall₂ Token.SameText (tokensOf ("\n".intercalate (lexemesOf source)))
      (tokensOf source) := by
  rw [tokensOf, toList_join_lexemesOf]
  exact onLines_sameText source.toList _ _

/-- Two signs that are no operator together, an error, and a string that is left open. -/
example : lexemesOf ("\n".intercalate (lexemesOf "x=\"a\nb\" = =@//?\n\"c"))
    = ["x", "=", "\"a\nb\"", "=", "=", "@", "\"c"] := by
  decide

end LoxLang
