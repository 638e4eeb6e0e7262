/-
Tokens tile the source.

A source text is made of gaps and lexemes in turn, and nothing of it is lost.  A gap is white
space and comments (`IsGap`), every token but the last has a lexeme with a character at least, and
a token knows how many lines and columns are in front of it (`Token.StandsAfter`).

* `Place.after_start` — the place after some text, found by counting instead of going through it.
* `exists_tiling` — the gaps in front of the tokens of a source text.
* `tokens_tile_source` — with them the tokens tile the source, and each one is in its place.
* `Token.LiesIn.of_mem` — so the source text has the lexeme of a token at the place of the token.
-/
import LoxLang.Proofs.Token.Cuts
import LoxLang.Proofs.Token.Scan
import Mathlib.Data.List.DropRight

namespace LoxLang

/-! ### Places -/

/-- The characters since the last line break. -/
def lastLine (text : List Char) : List Char := text.rtakeWhile (· != '\n')

theorem lastLine_concat (text : List Char) (c : Char) :
    lastLine (text ++ [c]) = if c = '\n' then [] else lastLine text ++ [c] := by
  rw [lastLine, lastLine, List.rtakeWhile_concat]
  by_cases h : c = '\n'
  · rw [if_pos h, if_neg (by simp [h])]
  · rw [if_neg h, if_pos (by simp [h])]

theorem Place.after_append (p : Place) (cs ds : List Char) :
    p.after (cs ++ ds) = (p.after cs).after ds :=
  List.foldl_append

/-- Each line break in a text begins a new line, and each character after the last one takes a
column. -/
theorem Place.after_start (text : List Char) :
    Place.start.after text = ⟨1 + text.count '\n', 1 + (lastLine text).length⟩ := by
  induction text using List.reverseRecOn with
  | nil => rfl
  | append_singleton text c ih =>
    rw [Place.after, List.foldl_concat, ← Place.after, ih, lastLine_concat, Place.next,
      List.count_append, List.count_singleton]
    by_cases h : c = '\n'
    · simp [h, Nat.add_assoc]
    · simp [h, Nat.add_assoc]

/-- The token is where a text goes on after some characters. -/
structure Token.StandsAfter (t : Token) (before : List Char) : Prop where
  line : t.line = 1 + before.count '\n'
  column : t.column = 1 + (lastLine before).length

theorem Token.standsAfter_ofLexeme (kind : Kind) (lexeme before : List Char) :
    (Token.ofLexeme kind lexeme (Place.start.after before)).StandsAfter before where
  line := by rw [Place.after_start]; rfl
  column := by rw [Place.after_start]; rfl

/-! ### Gaps -/

/-- White space and comments, in front of the text `rest`.  A comment ends where its line ends or
where the text does. -/
inductive IsGap : List Char → List Char → Prop where
  | nil {rest : List Char} : IsGap [] rest
  | blank {c : Char} {cs rest : List Char} (hc : isBlank c) (h : IsGap cs rest) :
      IsGap (c :: cs) rest
  | comment {body cs rest : List Char} (hbody : '\n' ∉ body)
      (hend : ∀ c ∈ (cs ++ rest).head?, c = '\n') (h : IsGap cs rest) :
      IsGap ('/' :: '/' :: body ++ cs) rest

theorem IsGap.append {gap cs rest : List Char} (h : IsGap gap (cs ++ rest)) (hcs : IsGap cs rest) :
    IsGap (gap ++ cs) rest := by
  generalize htext : cs ++ rest = text at h
  induction h with
  | nil => exact hcs
  | blank hc _ ih => exact .blank hc (ih htext)
  | @comment body gap _ hbody hend _ ih =>
    subst htext
    rw [List.append_assoc]
    refine .comment hbody ?_ (ih rfl)
    rwa [List.append_assoc]

/-- A text is the rest of its line and what comes after it, which begins with a line break. -/
theorem takeWhile_line (text : List Char) : ∃ rest,
    text = text.takeWhile (· != '\n') ++ rest ∧ ∀ c ∈ rest.head?, c = '\n' := by
  refine ⟨text.dropWhile (· != '\n'), List.takeWhile_append_dropWhile.symm, fun c hc => ?_⟩
  have hstop := List.head?_dropWhile_not (· != '\n') text
  rw [Option.mem_def.mp hc] at hstop
  simpa using hstop

/-- A comment that begins a text is a gap in front of the rest. -/
theorem isGap_of_comment {cs rest : List Char} (hcs : cs.head? = some '/')
    (hsplit : '/' :: cs = ('/' :: cs).takeWhile (· != '\n') ++ rest) :
    IsGap (('/' :: cs).takeWhile (· != '\n')) rest := by
  obtain ⟨cs, rfl⟩ : ∃ ds, cs = '/' :: ds := by
    cases cs with
    | nil => cases hcs
    | cons d ds =>
      cases hcs
      exact ⟨ds, rfl⟩
  have hline : ('/' :: '/' :: cs).takeWhile (· != '\n')
      = '/' :: '/' :: cs.takeWhile (· != '\n') ++ [] := by
    simp
  obtain ⟨rest', hcs, hstop⟩ := takeWhile_line cs
  -- What is left of the text is what is left of its first line.
  obtain rfl : rest = rest' := by
    rw [hline, List.append_nil, List.cons_append, List.cons_append, List.cons.injEq,
      List.cons.injEq] at hsplit
    exact List.append_cancel_left (hsplit.2.2.symm.trans hcs)
  rw [hline]
  refine .comment (fun hmem => ?_) hstop .nil
  have hne := List.mem_takeWhile_imp hmem
  simp at hne

theorem symbolLexeme_ne_gap (c : Char) (cs gap : List Char) : symbolLexeme c cs ≠ .gap gap := by
  unfold symbolLexeme
  split
  · exact Piece.noConfusion
  · exact Piece.noConfusion
  · split
    · exact Piece.noConfusion
    · exact Piece.noConfusion

/-- A first piece without a lexeme is a gap in front of the rest of the text. -/
theorem isGap_firstPiece {c : Char} {cs gap rest : List Char} (hgap : firstPiece c cs = .gap gap)
    (hsplit : c :: cs = gap ++ rest) : IsGap gap rest := by
  unfold firstPiece at hgap
  split at hgap
  · cases hgap
    exact .blank ‹_› .nil
  split at hgap
  · rename_i hcomment
    rw [Bool.and_eq_true, beq_iff_eq, beq_iff_eq] at hcomment
    obtain ⟨rfl, hcs⟩ := hcomment
    cases hgap
    exact isGap_of_comment hcs hsplit
  split at hgap
  · cases hgap
  split at hgap
  · cases hgap
  split at hgap
  · cases hgap
  · exact absurd hgap (symbolLexeme_ne_gap c cs gap)

/-! ### Gaps and tokens in turn -/

/-- Each token with the gap in front of it.  `gap` is what has been passed since the last lexeme,
and `p` is the place after it. -/
def tiles : Place → List Char → List Piece → List (List Char × Token)
  | p, gap, [] => [(gap, Token.atEnd p)]
  | p, gap, .gap cs :: rest => tiles (p.after cs) (gap ++ cs) rest
  | p, gap, .lexeme kind cs :: rest => (gap, Token.ofLexeme kind cs p) :: tiles (p.after cs) [] rest

/-- The text that gaps and tokens make in turn. -/
def written (parts : List (List Char × Token)) : List Char :=
  parts.flatMap fun (gap, t) => gap ++ t.lexeme.toList

theorem tiles_tokens (p : Place) (gap : List Char) (ps : List Piece) :
    (tiles p gap ps).map (·.2) = place p ps := by
  induction ps generalizing p gap with
  | nil => rfl
  | cons piece ps ih =>
    cases piece with
    | gap cs => exact ih _ _
    | lexeme kind cs => exact congrArg (List.cons _) (ih _ _)

theorem written_tiles (p : Place) (gap : List Char) (ps : List Piece) :
    written (tiles p gap ps) = gap ++ ps.flatMap Piece.chars := by
  induction ps generalizing p gap with
  | nil => simp [tiles, written, Token.atEnd, Token.ofLexeme]
  | cons piece ps ih =>
    cases piece with
    | gap cs =>
      rw [tiles, ih, List.flatMap_cons, List.append_assoc]
      rfl
    | lexeme kind cs =>
      have hrest := ih (p.after cs) []
      rw [written] at hrest
      rw [tiles, written, List.flatMap_cons, hrest, List.flatMap_cons]
      simp [Token.ofLexeme, Piece.chars]

/-- What is claimed of a token: it has a lexeme unless it ends the source, nothing but a gap is in
front of it, and it stands where it says. -/
structure InPlace (before : List Char) (part : List Char × Token) (after : List Char) : Prop where
  lexeme : part.2.kind ≠ .endOfFile → part.2.lexeme ≠ ""
  gap : IsGap part.1 (part.2.lexeme.toList ++ after)
  place : part.2.StandsAfter (before ++ part.1)

theorem inPlace_atEnd {before gap : List Char} (hgap : IsGap gap []) :
    InPlace before (gap, Token.atEnd (Place.start.after (before ++ gap))) [] where
  lexeme h := absurd rfl h
  gap := hgap
  place := Token.standsAfter_ofLexeme _ _ _

theorem inPlace_ofLexeme {before gap cs rest : List Char} {kind : Kind} (hcs : cs ≠ [])
    (hgap : IsGap gap (cs ++ rest)) :
    InPlace before (gap, Token.ofLexeme kind cs (Place.start.after (before ++ gap))) rest where
  lexeme _ := fun h => hcs (String.ofList_eq_empty_iff.mp h)
  gap := by
    show IsGap gap ((String.ofList cs).toList ++ rest)
    rwa [String.toList_ofList]
  place := Token.standsAfter_ofLexeme _ _ _

/-- A text with these pieces has its tokens in place, whatever comes before it and a gap. -/
def Tiled (cs : List Char) (ps : List Piece) : Prop :=
  ∀ before gap, IsGap gap cs → ∀ first part after,
    tiles (Place.start.after (before ++ gap)) gap ps = first ++ part :: after →
      InPlace (before ++ written first) part (written after)

theorem Tiled.nil : Tiled [] [] := by
  intro before gap hgap first part after h
  rw [tiles] at h
  cases first with
  | nil =>
    obtain ⟨rfl, rfl⟩ := List.cons.inj h
    rw [written, List.flatMap_nil, List.append_nil]
    exact inPlace_atEnd hgap
  | cons head first =>
    -- There is one token only, which ends the source.
    obtain ⟨-, hrest⟩ := List.cons.inj h
    exact absurd hrest.symm (List.append_ne_nil_of_right_ne_nil _ (List.cons_ne_nil _ _))

theorem Tiled.gap {cs rest : List Char} {ps : List Piece} (hcs : IsGap cs rest)
    (h : Tiled rest ps) : Tiled (cs ++ rest) (.gap cs :: ps) := by
  intro before gap hgap first part after hparts
  refine h before (gap ++ cs) (hgap.append hcs) first part after ?_
  rw [← hparts, tiles, ← List.append_assoc, Place.after_append _ _ cs]

theorem Tiled.lexeme {cs : List Char} {kind : Kind} (hcs : cs ≠ []) {rest : List Char}
    (h : Tiled rest (pieces rest)) : Tiled (cs ++ rest) (.lexeme kind cs :: pieces rest) := by
  intro before gap hgap first part after hparts
  rw [tiles] at hparts
  cases first with
  | nil =>
    obtain ⟨rfl, rfl⟩ := List.cons.inj hparts
    rw [written_tiles, flatMap_pieces, List.nil_append, written, List.flatMap_nil, List.append_nil]
    exact inPlace_ofLexeme hcs hgap
  | cons head first =>
    obtain ⟨rfl, hrest⟩ := List.cons.inj hparts
    -- The rest of the text goes on after the gap and the lexeme.
    rw [← Place.after_append] at hrest
    have hlater := h (before ++ gap ++ cs) [] .nil first part after (by rwa [List.append_nil])
    rw [written, List.flatMap_cons, ← written]
    simpa [Token.ofLexeme] using hlater

theorem tiled_pieces (cs : List Char) : Tiled cs (pieces cs) := by
  refine pieces_induction .nil ?_ cs
  intro c cs rest hsplit ih
  have hne := firstPiece_ne_nil c cs
  rw [hsplit]
  cases hpiece : firstPiece c cs with
  | gap gap =>
    rw [hpiece] at hsplit
    exact .gap (isGap_firstPiece hpiece hsplit) ih
  | lexeme kind cs =>
    rw [hpiece] at hne
    exact .lexeme hne ih

/-! ### Tokens of a source text -/

theorem place_getLast? (p : Place) (ps : List Piece) :
    (place p ps).getLast? = some (Token.atEnd (p.after (ps.flatMap Piece.chars))) := by
  induction ps generalizing p with
  | nil => rfl
  | cons piece ps ih =>
    rw [List.flatMap_cons, Place.after_append]
    cases piece with
    | gap cs => exact ih _
    | lexeme kind cs =>
      rw [place, List.getLast?_cons, ih]
      rfl

/-- The tokens of a source text with the gaps in front of them. -/
theorem exists_tiling (source : String) :
    ∃ parts, parts.map (·.2) = tokensOf source ∧ written parts = source.toList ∧
      ∀ before part after, parts = before ++ part :: after →
        InPlace (written before) part (written after) := by
  refine ⟨tiles .start [] (pieces source.toList), tiles_tokens _ _ _, ?_, ?_⟩
  · rw [written_tiles, flatMap_pieces, List.nil_append]
  · exact tiled_pieces source.toList [] [] .nil

/-- Tokens tile the source.  Of the tokens of a source text the last one, and no other, ends the
source.  With the gaps in front of them they are the whole text again, in order, and each one
knows its place: a line for every line break in front of its lexeme, and a column for every
character between the last of these and its lexeme.  The end of the source is the place after
all its characters. -/
theorem tokens_tile_source (source : String) :
    EndsOnce (tokensOf source) ∧
      (tokensOf source).getLast? = some (endToken source) ∧
      (endToken source).StandsAfter source.toList ∧
      ∃ parts, parts.map (·.2) = tokensOf source ∧ written parts = source.toList ∧
        ∀ before gap t after, parts = before ++ (gap, t) :: after →
          (t.kind ≠ .endOfFile → t.lexeme ≠ "") ∧ IsGap gap (t.lexeme.toList ++ written after) ∧
            t.StandsAfter (written before ++ gap) := by
  refine ⟨tokensOf_endsOnce source, ?_, Token.standsAfter_ofLexeme _ _ _, ?_⟩
  · rw [tokensOf, place_getLast?, flatMap_pieces, endToken]
  · obtain ⟨parts, htokens, hwritten, hparts⟩ := exists_tiling source
    refine ⟨parts, htokens, hwritten, fun before gap t after h => ?_⟩
    have hplace := hparts before (gap, t) after h
    exact ⟨hplace.lexeme, hplace.gap, hplace.place⟩

/-! ### The source at a token -/

/-- At the place of the token the source text goes on with its lexeme. -/
def Token.LiesIn (t : Token) (source : String) : Prop :=
  ∃ before after, source.toList = before ++ t.lexeme.toList ++ after ∧ t.StandsAfter before

/-- The tokens of a source text lie in it. -/
theorem Token.LiesIn.of_mem {t : Token} {source : String} (ht : t ∈ tokensOf source) :
    t.LiesIn source := by
  obtain ⟨parts, htokens, hwritten, hparts⟩ := exists_tiling source
  rw [← htokens] at ht
  obtain ⟨⟨gap, t⟩, hmem, rfl⟩ := List.mem_map.mp ht
  obtain ⟨first, last, rfl⟩ := List.mem_iff_append.mp hmem
  refine ⟨written first ++ gap, written last, ?_, (hparts _ _ _ rfl).place⟩
  rw [← hwritten]
  simp [written]

end LoxLang
