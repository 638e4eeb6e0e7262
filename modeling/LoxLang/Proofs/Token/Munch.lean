/-
Lexing takes the longest match.

After the white space and the comments in front of it, every token of a source text is the longest
text that a pattern matches there (`Longest`).  What the token stands for is read off its lexeme
(`Token.Munched`): a number is the double nearest to what is written, a string is the text
between its quotes, and a string without a closing quote is the last token of the source.

* `tiles_lexeme` — each lexeme is the first piece of the text that goes on with it.
* `munched_firstPiece` — so all this needs to be shown of the first piece of a text only.
* `slashes_in` — two slashes in a row are in a string or in a comment.
* `lexing_is_maximal_munch` — all of it, for the tokens of a source text.
-/
import LoxLang.Proofs.Decimal.Nearest
import LoxLang.Proofs.Token.Patterns
import LoxLang.Proofs.Token.Tiling

namespace LoxLang

/-! ### Numbers and strings -/

/-- The number that a text of digits writes, with a fraction after a point or without one. -/
inductive Writes : List Char → ℚ → Prop where
  | whole {ds : List Char} (hds : ∀ d ∈ ds, d.isDigit) : Writes ds (Nat.ofDigitChars 10 ds 0)
  | fraction {ds es : List Char} (hds : ∀ d ∈ ds, d.isDigit) (hes : ∀ d ∈ es, d.isDigit) :
      Writes (ds ++ '.' :: es)
        (Nat.ofDigitChars 10 ds 0 + Nat.ofDigitChars 10 es 0 / 10 ^ es.length)

theorem point_not_mem {ds : List Char} (hds : ∀ d ∈ ds, d.isDigit) : ∀ d ∈ ds, d != '.' := by
  intro d hd
  rw [bne_iff_ne]
  rintro rfl
  exact absurd (hds _ hd) (by decide)

/-- The decimal number of a lexeme that is all digits. -/
theorem lexemeDecimal_whole {ds : List Char} (hds : ∀ d ∈ ds, d.isDigit) :
    lexemeDecimal ds = ⟨Nat.ofDigitChars 10 ds 0, 0⟩ := by
  have hafter := List.dropWhile_eq_nil_iff.mpr (point_not_mem hds)
  have hbefore := List.takeWhile_eq_self_iff.mpr (point_not_mem hds)
  rw [lexemeDecimal, hbefore, hafter, Decimal.ofDigits, List.drop_nil, List.append_nil]
  rfl

/-- The decimal number of a lexeme with digits in front of its point. -/
theorem lexemeDecimal_point {ds : List Char} (hds : ∀ d ∈ ds, d.isDigit) (es : List Char) :
    lexemeDecimal (ds ++ '.' :: es) = .ofDigits ds es := by
  have hpoint := point_not_mem hds
  rw [lexemeDecimal, List.takeWhile_append_of_pos hpoint, List.dropWhile_append_of_pos hpoint,
    List.takeWhile_cons_of_neg (by decide), List.dropWhile_cons_of_neg (by decide),
    List.append_nil, List.drop_one, List.tail_cons]

/-- The decimal number of a lexeme is what the lexeme writes. -/
theorem writes_lexemeDecimal {lexeme : List Char} (h : Matches .number lexeme) :
    Writes lexeme (lexemeDecimal lexeme).value := by
  cases h with
  | whole _ hds =>
    rw [lexemeDecimal_whole hds, Decimal.value, zpow_zero, mul_one]
    exact .whole hds
  | @fraction ds es _ hds _ hes =>
    have hvalue : (Decimal.ofDigits ds es).value
        = Nat.ofDigitChars 10 ds 0 + Nat.ofDigitChars 10 es 0 / 10 ^ es.length := by
      rw [Decimal.ofDigits, Decimal.value, Nat.ofDigitChars_append,
        Nat.ofDigitChars_eq_ofDigitChars_zero, zpow_neg, zpow_natCast]
      push_cast
      field_simp
    rw [lexemeDecimal_point hds, hvalue]
    exact .fraction hds hes

/-- A token of the kind of numbers looks like a number, and so with strings. -/
theorem Pattern.Gives.pattern_eq {pattern : Pattern} {lexeme : List Char} {kind : Kind}
    (hmatch : Matches pattern lexeme) (h : pattern.Gives lexeme kind) :
    (kind = .number → pattern = .number) ∧ (kind = .string → pattern = .string) := by
  cases hmatch with
  | operator hop =>
    have hoperators : ∀ op ∈ operators, op.2 ≠ .number ∧ op.2 ≠ .string := by decide
    obtain rfl := h
    exact ⟨fun heq => absurd heq (hoperators _ hop).1, fun heq => absurd heq (hoperators _ hop).2⟩
  | @word c cs hc hcs =>
    have hkeywords : ∀ keyword ∈ keywords, keyword.2 ≠ .number ∧ keyword.2 ≠ .string := by decide
    by_cases hnone : ∀ text k, (text, k) ∈ keywords → c :: cs ≠ text.toList
    · rw [h.2.mpr hnone]
      exact ⟨nofun, nofun⟩
    · push Not at hnone
      obtain ⟨text, k, hmem, hword⟩ := hnone
      rw [(h.1 text k hmem).mpr hword]
      exact ⟨fun heq => absurd heq (hkeywords _ hmem).1, fun heq => absurd heq (hkeywords _ hmem).2⟩
  | whole | fraction =>
    obtain rfl := h
    exact ⟨fun _ => rfl, nofun⟩
  | opened | closed =>
    obtain rfl := h
    exact ⟨nofun, fun _ => rfl⟩

/-- The first piece of a text that begins with a quote. -/
theorem firstPiece_quote (cs : List Char) :
    firstPiece '"' cs = .lexeme .string (stringLexeme cs) := rfl

/-- What a string without a closing quote has in it, and what one with a closing quote has. -/
theorem string_closed (body : List Char) : isClosed ('"' :: body ++ ['"']) = true ∧
    unquote ('"' :: body ++ ['"']) = body := by
  have hclosed : isClosed ('"' :: body ++ ['"']) = true := by
    rw [isClosed, List.getLast?_concat]
    simp
  rw [unquote, if_pos hclosed, List.cons_append, List.drop_one, List.tail_cons,
    List.dropLast_concat]
  exact ⟨hclosed, rfl⟩

theorem string_opened {body : List Char} (h : '"' ∉ body) : isClosed ('"' :: body) = false ∧
    unquote ('"' :: body) = body := by
  have hclosed : isClosed ('"' :: body) = false := by
    rw [isClosed, Bool.and_eq_false_iff]
    cases body using List.reverseRecOn with
    | nil => exact .inl rfl
    | append_singleton body c =>
      right
      rw [← List.cons_append, List.getLast?_concat, beq_eq_false_iff_ne]
      rintro ⟨⟩
      exact h (by simp)
  rw [unquote, hclosed]
  exact ⟨rfl, rfl⟩

/-! ### The first piece -/

/-- A token that is the longest match where it stands, in front of the text `rest`, and stands for
what its lexeme says. -/
structure Token.Munched (t : Token) (rest : List Char) : Prop where
  /-- The white space and the comments have been skipped. -/
  skipped : ∀ c ∈ t.lexeme.toList.head?, isBlank c = false
  not_comment : ¬ ['/', '/'] <+: t.lexeme.toList ++ rest
  longest : Longest t.kind t.lexeme.toList (t.lexeme.toList ++ rest)
  number : t.kind = .number → ∃ x v, t.literal = .number x ∧ Writes t.lexeme.toList v ∧ IsNearest x v
  string : t.kind = .string → ∃ body, t.literal = .text (String.ofList body) ∧ '"' ∉ body ∧
    t.lexeme.toList = '"' :: body ++ if t.terminated then ['"'] else []
  no_literal : t.kind ≠ .number → t.kind ≠ .string → t.literal = .null
  terminated_iff : t.terminated = false ↔
    t.kind = .string ∧ '"' ∉ (t.lexeme.toList ++ rest).tail
  to_end : t.terminated = false → rest = []

section FirstPiece

variable {kind : Kind} {c : Char} {cs lexeme rest : List Char} {p : Place}

/-- A text that goes on with a lexeme does not begin with a gap. -/
theorem no_gap_of_lexeme (h : firstPiece c cs = .lexeme kind lexeme) :
    isBlank c = false ∧ ¬ ['/', '/'] <+: c :: cs := by
  unfold firstPiece at h
  split at h
  · cases h
  rename_i hblank
  split at h
  · cases h
  rename_i hcomment
  refine ⟨by simpa using hblank, fun hslashes => hcomment ?_⟩
  obtain ⟨tail, htail⟩ := hslashes
  obtain ⟨rfl, rfl⟩ := List.cons.inj htail
  rfl

/-- A string is closed if there is a quote in the text after its opening one, and otherwise it is
all of that text. -/
theorem string_firstPiece (h : firstPiece c cs = .lexeme .string lexeme)
    (hsplit : c :: cs = lexeme ++ rest) :
    (∃ body, '"' ∉ body ∧ unquote lexeme = body ∧
      lexeme = '"' :: body ++ if isClosed lexeme then ['"'] else []) ∧
    (isClosed lexeme = false ↔ '"' ∉ cs) ∧ (isClosed lexeme = false → rest = []) := by
  obtain ⟨pattern, hmatch, hgives⟩ := (longest_firstPiece h).matched (by decide)
  obtain rfl := (hgives.pattern_eq hmatch).2 rfl
  obtain ⟨d, ds, rfl, rfl⟩ := hmatch.exists_cons
  obtain ⟨rfl, -⟩ := List.cons.inj hsplit
  rw [firstPiece_quote, Piece.lexeme.injEq] at h
  obtain ⟨body, hbody, ⟨after, rfl, hlexeme⟩ | ⟨rfl, hlexeme⟩⟩ := stringLexeme_cases cs
  · obtain ⟨hclosed, hunquote⟩ := string_closed body
    rw [← h.2, hlexeme, hclosed, hunquote]
    exact ⟨⟨body, hbody, rfl, rfl⟩, iff_of_false nofun (by simp), nofun⟩
  · obtain ⟨hopened, hunquote⟩ := string_opened hbody
    rw [← h.2, hlexeme] at hsplit
    rw [← h.2, hlexeme, hopened, hunquote]
    exact ⟨⟨cs, hbody, rfl, (List.append_nil _).symm⟩, iff_of_true rfl hbody,
      fun _ => List.self_eq_append_right.mp hsplit⟩

theorem munched_firstPiece (h : firstPiece c cs = .lexeme kind lexeme)
    (hsplit : c :: cs = lexeme ++ rest) : (Token.ofLexeme kind lexeme p).Munched rest := by
  have hlexeme : (Token.ofLexeme kind lexeme p).lexeme.toList = lexeme := String.toList_ofList
  have hhead : ∀ d ∈ lexeme.head?, d = c := by
    intro d hd
    obtain ⟨ds, rfl⟩ := List.head?_eq_some_iff.mp hd
    exact (List.cons.inj hsplit).1.symm
  have hterminated : (Token.ofLexeme kind lexeme p).terminated = false ↔
      kind = .string ∧ isClosed lexeme = false := by
    show (kind != .string || isClosed lexeme) = false ↔ _
    rw [Bool.or_eq_false_iff, bne_eq_false_iff_eq]
  obtain ⟨hblank, hcomment⟩ := no_gap_of_lexeme h
  have hlongest := longest_firstPiece h
  refine ⟨?_, ?_, ?_, ?_, ?_, ?_, ?_, ?_⟩
  · rw [hlexeme]
    exact fun d hd => hhead d hd ▸ hblank
  · rwa [hlexeme, ← hsplit]
  · rwa [hlexeme, ← hsplit]
  · rintro rfl
    obtain ⟨pattern, hmatch, hgives⟩ := hlongest.matched (by decide)
    obtain rfl := (hgives.pattern_eq hmatch).1 rfl
    rw [hlexeme]
    exact ⟨_, _, rfl, writes_lexemeDecimal hmatch, Decimal.toFloat_isNearest _⟩
  · rintro rfl
    obtain ⟨⟨body, hbody, hunquote, hform⟩, -, -⟩ := string_firstPiece h hsplit
    refine ⟨body, ?_, hbody, ?_⟩
    · rw [← hunquote]
      rfl
    · rw [hlexeme]
      exact hform
  · intro hnumber hstring
    unfold Token.ofLexeme at hnumber hstring ⊢
    dsimp only at hnumber hstring ⊢
    split
    · exact absurd rfl hnumber
    · exact absurd rfl hstring
    · rfl
  · rw [hterminated, hlexeme, ← hsplit, List.tail_cons]
    refine and_congr_right ?_
    rintro rfl
    exact (string_firstPiece h hsplit).2.1
  · rw [hterminated]
    rintro ⟨rfl, hopened⟩
    exact (string_firstPiece h hsplit).2.2 hopened

end FirstPiece

/-! ### Tokens in front of the rest of a text -/

/-- Every token but the last is the longest match where it stands. -/
theorem munched_of_tiles {cs gap before : List Char} {p : Place}
    {first after : List (List Char × Token)} {t : Token}
    (h : tiles p gap (pieces cs) = first ++ (before, t) :: after) (ht : t.kind ≠ .endOfFile) :
    t.Munched (written after) := by
  revert h
  refine pieces_induction (motive := fun _ ps => ∀ p gap first,
    tiles p gap ps = first ++ (before, t) :: after → t.Munched (written after)) ?_ ?_ cs p gap first
  · intro p gap first h
    cases first with
    | nil =>
      obtain ⟨heq, -⟩ := List.cons.inj h
      obtain ⟨-, rfl⟩ := Prod.mk.inj heq
      exact absurd rfl ht
    | cons head first =>
      obtain ⟨-, hnil⟩ := List.cons.inj h
      exact absurd hnil (List.append_ne_nil_of_right_ne_nil _ (List.cons_ne_nil _ _)).symm
  · intro c cs rest hsplit ih p gap first h
    cases hpiece : firstPiece c cs with
    | gap chars =>
      rw [hpiece] at h
      exact ih _ _ first h
    | lexeme kind chars =>
      rw [hpiece, tiles] at h
      cases first with
      | nil =>
        obtain ⟨heq, rfl⟩ := List.cons.inj h
        obtain ⟨-, rfl⟩ := Prod.mk.inj heq
        rw [hpiece] at hsplit
        rw [written_tiles, flatMap_pieces, List.nil_append]
        exact munched_firstPiece hpiece hsplit
      | cons head first => exact ih _ _ first (List.cons.inj h).2

theorem Token.Munched.lexeme_ne_nil {t : Token} {rest : List Char} (h : t.Munched rest) :
    t.lexeme.toList ≠ [] := by
  by_cases hkind : t.kind = .error
  · obtain ⟨c, hc⟩ := h.longest.single hkind
    rw [hc]
    exact List.cons_ne_nil _ _
  · obtain ⟨pattern, hmatch, -⟩ := h.longest.matched hkind
    obtain ⟨c, cs, hcs, -⟩ := hmatch.exists_cons
    rw [hcs]
    exact List.cons_ne_nil _ _

/-! ### Two slashes -/

section Slashes

variable {u v gap rest : List Char} {c : Char}

theorem append_eq_append_cons {xs ys : List Char} (h : xs ++ ys = u ++ c :: v) :
    (∃ vs, xs = u ++ c :: vs ∧ v = vs ++ ys) ∨ ∃ us, u = xs ++ us ∧ ys = us ++ c :: v := by
  rcases List.append_eq_append_iff.mp h with ⟨us, rfl, hys⟩ | ⟨bs, rfl, hv⟩
  · exact .inr ⟨us, rfl, hys⟩
  · rcases List.cons_eq_append_iff.mp hv with ⟨rfl, hys⟩ | ⟨vs, rfl, hv⟩
    · exact .inr ⟨[], by simp, hys⟩
    · exact .inl ⟨vs, rfl, (List.cons.inj hv).2⟩

/-- A character of a text is in a gap or in a lexeme. -/
theorem exists_part_at {parts : List (List Char × Token)} (h : written parts = u ++ c :: v) :
    ∃ first gap t after, parts = first ++ (gap, t) :: after ∧
      ((∃ us vs, gap = us ++ c :: vs ∧ u = written first ++ us ∧
          v = vs ++ (t.lexeme.toList ++ written after)) ∨
        ∃ us vs, t.lexeme.toList = us ++ c :: vs ∧ u = written first ++ gap ++ us ∧
          v = vs ++ written after) := by
  induction parts generalizing u with
  | nil => exact absurd h (List.append_ne_nil_of_right_ne_nil _ (List.cons_ne_nil _ _)).symm
  | cons part parts ih =>
    obtain ⟨gap, t⟩ := part
    rw [written, List.flatMap_cons, ← written, List.append_assoc] at h
    rcases append_eq_append_cons h with ⟨vs, hgap, hv⟩ | ⟨us, rfl, hlexemes⟩
    · exact ⟨[], gap, t, parts, rfl, .inl ⟨u, vs, hgap, rfl, hv⟩⟩
    rcases append_eq_append_cons hlexemes with ⟨vs, hlexeme, hv⟩ | ⟨us, rfl, hparts⟩
    · exact ⟨[], gap, t, parts, rfl, .inr ⟨us, vs, hlexeme, rfl, hv⟩⟩
    obtain ⟨first, gap', t', after, rfl, hpart⟩ := ih hparts
    have hwritten : written ((gap, t) :: first) = gap ++ (t.lexeme.toList ++ written first) := by
      rw [written, List.flatMap_cons, ← written, List.append_assoc]
    refine ⟨(gap, t) :: first, gap', t', after, rfl, ?_⟩
    rw [hwritten]
    rcases hpart with ⟨us, vs, hgap, rfl, hv⟩ | ⟨us, vs, hlexeme, rfl, hv⟩
    · exact .inl ⟨us, vs, hgap, by simp only [List.append_assoc], hv⟩
    · exact .inr ⟨us, vs, hlexeme, by simp only [List.append_assoc], hv⟩

/-- Two slashes and the rest of the line, in front of the text `rest`. -/
def IsComment (comment rest : List Char) : Prop :=
  ∃ body, comment = '/' :: '/' :: body ∧ '\n' ∉ body ∧ ∀ c ∈ rest.head?, c = '\n'

/-- Two slashes that begin in a gap begin a comment, or they are in one that has begun before. -/
theorem IsGap.slashes (h : IsGap gap rest) {us vs ws : List Char} (hgap : gap = us ++ '/' :: vs)
    (hnext : vs ++ rest = '/' :: ws) :
    ∃ skipped comment cs, gap = skipped ++ comment ++ cs ∧
      IsGap skipped (comment ++ cs ++ rest) ∧ IsComment comment (cs ++ rest) ∧
      ∃ xs ys, us = skipped ++ xs ∧ comment = xs ++ '/' :: '/' :: ys := by
  induction h generalizing us with
  | nil => exact absurd hgap (List.append_ne_nil_of_right_ne_nil _ (List.cons_ne_nil _ _)).symm
  | @blank c cs rest hc h ih =>
    cases us with
    | nil =>
      obtain ⟨rfl, -⟩ := List.cons.inj hgap
      exact absurd hc (by decide)
    | cons d us =>
      obtain ⟨rfl, hcs⟩ := List.cons.inj hgap
      obtain ⟨skipped, comment, after, rfl, hskipped, hcomment, xs, ys, rfl, hslashes⟩ :=
        ih hcs hnext
      refine ⟨c :: skipped, comment, after, rfl, .blank hc ?_, hcomment, xs, ys, rfl, hslashes⟩
      exact hskipped
  | @comment body cs rest hbody hend h ih =>
    rcases append_eq_append_cons hgap with ⟨zs, hcomment, rfl⟩ | ⟨us, rfl, hcs⟩
    · -- The second slash is still in the comment, as the comment goes on to the end of the line.
      refine ⟨[], '/' :: '/' :: body, cs, rfl, .nil, ⟨body, rfl, hbody, hend⟩, us, ?_⟩
      cases zs with
      | nil =>
        rw [List.nil_append] at hnext
        rw [hnext] at hend
        exact absurd (hend '/' rfl) (by decide)
      | cons z zs =>
        obtain ⟨rfl, -⟩ := List.cons.inj hnext
        exact ⟨zs, rfl, hcomment⟩
    · obtain ⟨skipped, comment, after, rfl, hskipped, hcomment, xs, ys, rfl, hslashes⟩ :=
        ih hcs hnext
      refine ⟨'/' :: '/' :: body ++ skipped, comment, after, by simp, .comment hbody ?_ hskipped,
        hcomment, xs, ys, by simp, hslashes⟩
      simpa using hend

/-- Of the texts that patterns match, only strings and the operator have a slash. -/
theorem Matches.slash {pattern : Pattern} {lexeme : List Char} (h : Matches pattern lexeme)
    (hslash : '/' ∈ lexeme) : pattern = .string ∨ lexeme = ['/'] := by
  have hdigits {ds : List Char} (hds : ∀ d ∈ ds, d.isDigit) : '/' ∉ ds := fun hmem =>
    absurd (hds _ hmem) (by decide)
  cases h with
  | operator hop =>
    have hoperators : ∀ op ∈ operators, '/' ∈ op.1.toList → op.1.toList = ['/'] := by decide
    exact .inr (hoperators _ hop hslash)
  | word hc hcs =>
    rcases List.mem_cons.mp hslash with rfl | hmem
    · exact absurd hc (by decide)
    · exact absurd (hcs _ hmem) (by decide)
  | whole _ hds => exact absurd hslash (hdigits hds)
  | fraction _ hds _ hes =>
    rcases List.mem_append.mp hslash with hmem | hmem
    · exact absurd hmem (hdigits hds)
    · rcases List.mem_cons.mp hmem with heq | hmem
      · exact absurd heq (by decide)
      · exact absurd hmem (hdigits hes)
  | opened | closed => exact .inl rfl

/-- Two slashes that begin in a lexeme are in a string. -/
theorem Token.Munched.slashes {t : Token} (h : t.Munched rest) {us vs ws : List Char}
    (hlexeme : t.lexeme.toList = us ++ '/' :: vs) (hnext : vs ++ rest = '/' :: ws) :
    t.kind = .string ∧ us ≠ [] ∧ ∃ zs, vs = '/' :: zs := by
  have hmem : '/' ∈ t.lexeme.toList := by
    rw [hlexeme]
    simp
  -- A lexeme that is one slash is not followed by another one.
  have hsingle : t.lexeme.toList ≠ ['/'] := by
    intro hslash
    obtain ⟨rfl, rfl⟩ : us = [] ∧ vs = [] := by
      rw [hslash] at hlexeme
      cases us with
      | nil => exact ⟨rfl, (List.cons.inj hlexeme).2.symm⟩
      | cons _ us =>
        have hne : us ++ '/' :: vs ≠ [] := List.append_ne_nil_of_right_ne_nil us (List.cons_ne_nil _ _)
        exact absurd (List.cons.inj hlexeme).2.symm hne
    refine h.not_comment ⟨ws, ?_⟩
    rw [hslash, ← List.nil_append rest, hnext]
    rfl
  have hkind : t.kind = .string := by
    by_cases herror : t.kind = .error
    · obtain ⟨c, hc⟩ := h.longest.single herror
      rw [hc, List.mem_singleton] at hmem
      exact absurd (hmem ▸ hc) hsingle
    · obtain ⟨pattern, hmatch, hgives⟩ := h.longest.matched herror
      rcases hmatch.slash hmem with rfl | hslash
      · exact hgives
      · exact absurd hslash hsingle
  obtain ⟨body, -, hbody, hform⟩ := h.string hkind
  refine ⟨hkind, ?_, ?_⟩
  · rintro rfl
    rw [hform] at hlexeme
    exact absurd (List.cons.inj hlexeme).1 (by decide)
  · cases vs with
    | cons z zs =>
      obtain ⟨rfl, -⟩ := List.cons.inj hnext
      exact ⟨zs, rfl⟩
    | nil =>
      -- The last character of a string that goes on is its closing quote.
      cases hterminated : t.terminated with
      | false =>
        rw [h.to_end hterminated] at hnext
        cases hnext
      | true =>
        rw [hform, hterminated, if_pos rfl] at hlexeme
        obtain ⟨-, hlast⟩ := List.append_inj' hlexeme rfl
        exact absurd (List.cons.inj hlast).1 (by decide)

end Slashes

/-! ### Source texts -/

section Sources

variable {source : String} {first after : List (List Char × Token)} {gap : List Char} {t : Token}

/-- The last token is the one that ends the source. -/
theorem ends_of_tiles (h : tiles .start [] (pieces source.toList) = first ++ (gap, t) :: after) :
    (t.kind = .endOfFile ↔ after = []) ∧ (after = [] → t = endToken source) := by
  have htokens : tokensOf source = first.map (·.2) ++ t :: after.map (·.2) := by
    rw [tokensOf, ← tiles_tokens .start [] (pieces source.toList), h, List.map_append]
    rfl
  obtain ⟨hends, hlast, -⟩ := tokens_tile_source source
  rw [htokens] at hends hlast
  refine ⟨?_, ?_⟩
  · rw [(hends.of_append (List.cons_ne_nil _ _)).1.tail_eq_nil_iff, List.map_eq_nil_iff]
  · rintro rfl
    rwa [List.map_nil, List.getLast?_concat, Option.some.injEq] at hlast

/-- Where nothing but the end of the source is left to read, there is no token but that one. -/
theorem after_eq_of_written (h : tiles .start [] (pieces source.toList) = first ++ (gap, t) :: after)
    (ht : t.kind ≠ .endOfFile) (hend : written after = []) : after = [([], endToken source)] := by
  cases after with
  | nil => exact absurd ((ends_of_tiles h).1.mpr rfl) ht
  | cons part after =>
    obtain ⟨gap', t'⟩ := part
    have h' : tiles .start [] (pieces source.toList) = (first ++ [(gap, t)]) ++ (gap', t') :: after := by
      rw [h, List.append_assoc]
      rfl
    rw [written, List.flatMap_cons, List.append_assoc] at hend
    obtain ⟨rfl, hrest⟩ := List.append_eq_nil_iff.mp hend
    have hkind : t'.kind = .endOfFile := by
      by_contra hkind
      exact (munched_of_tiles h' hkind).lexeme_ne_nil (List.append_eq_nil_iff.mp hrest).1
    obtain rfl := (ends_of_tiles h').1.mp hkind
    rw [(ends_of_tiles h').2 rfl]

end Sources

/-- Lexing takes the longest match.  The tokens of a source text and the gaps in front of them are
the text in order.  In front of each token as much white space and as many comments as there are
have been skipped, and the token is the longest text that a pattern matches there; it is an error of
one character if there is none.  Its kind, its literal and whether it is terminated are what
`Token.Munched` says of its lexeme.  If it is not terminated, nothing but the end of the source comes
after it.  Two slashes in a row are in a string, or else in a comment: they begin it, or it has begun
before them. -/
theorem lexing_is_maximal_munch (source : String) : ∃ parts,
    parts.map (·.2) = tokensOf source ∧ written parts = source.toList ∧
    (∀ before gap t after, parts = before ++ (gap, t) :: after → t.kind ≠ .endOfFile →
      IsGap gap (t.lexeme.toList ++ written after) ∧ t.Munched (written after) ∧
        (t.terminated = false → after = [([], endToken source)])) ∧
    ∀ u v, source.toList = u ++ '/' :: '/' :: v →
      ∃ before gap t after, parts = before ++ (gap, t) :: after ∧
        ((t.kind = .string ∧ ∃ xs ys, t.lexeme.toList = xs ++ '/' :: '/' :: ys ∧ xs ≠ [] ∧
            u = written before ++ gap ++ xs) ∨
          ∃ skipped comment cs, gap = skipped ++ comment ++ cs ∧
            IsGap skipped (comment ++ cs ++ (t.lexeme.toList ++ written after)) ∧
            IsComment comment (cs ++ (t.lexeme.toList ++ written after)) ∧
            ∃ xs ys, comment = xs ++ '/' :: '/' :: ys ∧ u = written before ++ skipped ++ xs) := by
  have hwritten : written (tiles .start [] (pieces source.toList)) = source.toList := by
    rw [written_tiles, flatMap_pieces, List.nil_append]
  have hgap {before gap t after}
      (hparts : tiles .start [] (pieces source.toList) = before ++ (gap, t) :: after) :
      IsGap gap (t.lexeme.toList ++ written after) :=
    (tiled_pieces source.toList [] [] .nil before (gap, t) after hparts).gap
  refine ⟨_, tiles_tokens _ _ _, hwritten, fun before gap t after hparts ht => ?_,
    fun u v hslashes => ?_⟩
  · have hmunched := munched_of_tiles hparts ht
    exact ⟨hgap hparts, hmunched, fun h => after_eq_of_written hparts ht (hmunched.to_end h)⟩
  · obtain ⟨before, gap, t, after, hparts, hwhere⟩ := exists_part_at (hwritten.trans hslashes)
    refine ⟨before, gap, t, after, hparts, ?_⟩
    rcases hwhere with ⟨us, vs, hus, rfl, hnext⟩ | ⟨us, vs, hlexeme, rfl, hnext⟩
    · obtain ⟨skipped, comment, cs, hcs, hskipped, hcomment, xs, ys, rfl, hxs⟩ :=
        (hgap hparts).slashes hus hnext.symm
      exact .inr ⟨skipped, comment, cs, hcs, hskipped, hcomment, xs, ys, hxs, by simp⟩
    · have ht : t.kind ≠ .endOfFile := by
        intro hkind
        have hend := ends_of_tiles hparts
        rw [hend.2 (hend.1.mp hkind)] at hlexeme
        exact absurd hlexeme.symm (List.append_ne_nil_of_right_ne_nil _ (List.cons_ne_nil _ _))
      obtain ⟨hkind, hus, zs, rfl⟩ := (munched_of_tiles hparts ht).slashes hlexeme hnext.symm
      exact .inl ⟨hkind, us, zs, hlexeme, hus, rfl⟩

end LoxLang
