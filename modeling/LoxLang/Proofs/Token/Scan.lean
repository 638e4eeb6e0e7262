/-
The tokens of a source text.

* `EndsOnce` — the last token, and no other one, ends the source.  So it is with the tokens of
  every source text (`tokensOf_endsOnce`).
* `tokensOf_lexed` — every token of a source text is made from a lexeme, so that its literal is
  what its kind says.
-/
import LoxLang.Token.Scan
import Mathlib.Data.List.Basic

namespace LoxLang

/-! ### Ending once -/

/-- The last token, and no other one, ends the source. -/
def EndsOnce (tokens : List Token) : Prop :=
  ∃ before last, tokens = before ++ [last] ∧ last.kind = .endOfFile ∧
    ∀ t ∈ before, t.kind ≠ .endOfFile

theorem EndsOnce.of_append {ts us : List Token} (h : EndsOnce (ts ++ us)) (hus : us ≠ []) :
    EndsOnce us ∧ ∀ t ∈ ts, t.kind ≠ .endOfFile := by
  obtain ⟨before, last, heq, hlast, hbefore⟩ := h
  obtain ⟨vs, v, rfl⟩ := List.eq_nil_or_concat us |>.resolve_left hus
  rw [List.concat_eq_append, ← List.append_assoc] at heq
  obtain ⟨rfl, rfl⟩ := List.append_inj' heq rfl |>.imp_right List.singleton_inj.mp
  refine ⟨⟨vs, v, List.concat_eq_append .., hlast, fun t ht => ?_⟩, fun t ht => ?_⟩
  · exact hbefore t (List.mem_append_right ts ht)
  · exact hbefore t (List.mem_append_left vs ht)

theorem EndsOnce.tail_eq_nil_iff {t : Token} {ts : List Token} (h : EndsOnce (t :: ts)) :
    t.kind = .endOfFile ↔ ts = [] := by
  constructor
  · intro hkind
    by_contra hts
    have h' : EndsOnce ([t] ++ ts) := h
    exact (h'.of_append hts).2 t (by simp) hkind
  · rintro rfl
    obtain ⟨before, last, heq, hlast, -⟩ := h
    obtain rfl : t = last := by simpa using congrArg List.getLast? heq
    exact hlast

theorem EndsOnce.cons {t : Token} {ts : List Token} (h : EndsOnce ts) (ht : t.kind ≠ .endOfFile) :
    EndsOnce (t :: ts) := by
  obtain ⟨before, last, rfl, hlast, hbefore⟩ := h
  exact ⟨t :: before, last, rfl, hlast, List.forall_mem_cons.mpr ⟨ht, hbefore⟩⟩

/-! ### Pieces -/

/-- A lexeme does not end the source. -/
def Piece.GoesOn : Piece → Prop
  | .gap _ => True
  | .lexeme kind _ => kind ≠ .endOfFile

theorem wordKind_ne_endOfFile (word : List Char) : wordKind word ≠ .endOfFile := by
  have hkeywords : ∀ keyword ∈ keywords, keyword.2 ≠ .endOfFile := by decide
  have hfound (p : String × Kind → Bool) :
      ((keywords.find? p).map (·.2)).getD .identifier ≠ .endOfFile := by
    cases h : keywords.find? p with
    | none => decide
    | some keyword => exact hkeywords keyword (List.mem_of_find?_eq_some h)
  exact hfound _

theorem symbolLexeme_goesOn (c : Char) (cs : List Char) : (symbolLexeme c cs).GoesOn := by
  -- No symbol has the kind that ends the source, with an equal sign after it or without.
  have hkinds : ∀ kind withEqual, symbolKinds c = some (kind, withEqual) →
      kind ≠ .endOfFile ∧ withEqual ≠ some .endOfFile := by
    intro kind withEqual h
    unfold symbolKinds at h
    split at h <;> cases h <;> decide
  unfold symbolLexeme
  split
  · exact Kind.noConfusion
  · rename_i h
    exact (hkinds _ _ h).1
  · rename_i h
    split
    · exact fun hkind => (hkinds _ _ h).2 (congrArg some hkind)
    · exact (hkinds _ _ h).1

theorem firstPiece_goesOn (c : Char) (cs : List Char) : (firstPiece c cs).GoesOn := by
  unfold firstPiece
  split
  · trivial
  split
  · trivial
  split
  · exact Kind.noConfusion
  split
  · exact Kind.noConfusion
  split
  · exact wordKind_ne_endOfFile _
  · exact symbolLexeme_goesOn c cs

theorem piecesUpTo_goesOn (n : Nat) (cs : List Char) : ∀ piece ∈ piecesUpTo n cs, piece.GoesOn := by
  induction n generalizing cs with
  | zero => exact fun _ h => absurd h List.not_mem_nil
  | succ n ih =>
    cases cs with
    | nil => exact fun _ h => absurd h List.not_mem_nil
    | cons c cs => exact List.forall_mem_cons.mpr ⟨firstPiece_goesOn c cs, ih _⟩

/-! ### Tokens -/

theorem place_endsOnce (p : Place) {pieces : List Piece} (h : ∀ piece ∈ pieces, piece.GoesOn) :
    EndsOnce (place p pieces) := by
  induction pieces generalizing p with
  | nil => exact ⟨[], Token.atEnd p, rfl, rfl, fun _ ht => absurd ht List.not_mem_nil⟩
  | cons piece pieces ih =>
    obtain ⟨hpiece, hpieces⟩ := List.forall_mem_cons.mp h
    cases piece with
    | gap cs => exact ih _ hpieces
    | lexeme kind cs => exact (ih _ hpieces).cons hpiece

/-- The tokens of a source text end with the end of the source, which is nowhere else. -/
theorem tokensOf_endsOnce (source : String) : EndsOnce (tokensOf source) :=
  place_endsOnce _ (piecesUpTo_goesOn _ _)

/-- The token is made from a lexeme. -/
def Token.Lexed (t : Token) : Prop :=
  ∃ kind lexeme p, t = Token.ofLexeme kind lexeme p

/-- Every token of a source text is made from a lexeme. -/
theorem tokensOf_lexed {source : String} {t : Token} (ht : t ∈ tokensOf source) : t.Lexed := by
  rw [tokensOf] at ht
  generalize pieces source.toList = pieces, Place.start = p at ht
  induction pieces generalizing p with
  | nil => exact ⟨_, _, _, List.mem_singleton.mp ht⟩
  | cons piece pieces ih =>
    cases piece with
    | gap cs => exact ih _ ht
    | lexeme kind cs =>
      rcases List.mem_cons.mp ht with rfl | ht
      · exact ⟨kind, cs, p, rfl⟩
      · exact ih _ ht

end LoxLang
