/-
The longest match.

The tokens of the language are given by patterns: the operators, which are fixed texts, and the
shapes of words, numbers and strings.  `Matches` says which texts they match, whatever comes after
them.  Cutting goes through the characters only once and never looks at a pattern again, but what
it cuts off is always the longest text that any of them matches:

* `Longest` — a lexeme is the longest text that a pattern matches, and one character is cut off as
  an error where there is none;
* `longest_firstPiece` — every lexeme that is cut off is.
-/
import LoxLang.Proofs.Token.Cuts
import Mathlib.Data.List.TakeWhile

namespace LoxLang

/-! ### Patterns -/

/-- The operators and the other signs. -/
def operators : List (String × Kind) :=
  [("(", .leftParen), (")", .rightParen), ("\x7b", .leftBrace), ("\x7d", .rightBrace),
   (",", .comma), (".", .dot), ("-", .minus), ("+", .plus), (";", .semicolon), ("/", .slash),
   ("*", .star), ("!", .bang), ("!=", .bangEqual), ("=", .equal), ("==", .equalEqual),
   (">", .greater), (">=", .greaterEqual), ("<", .less), ("<=", .lessEqual)]

/-- What a token may look like: one of the operators, a word, a number or a string. -/
inductive Pattern where
  | operator (kind : Kind)
  | word
  | number
  | string
deriving DecidableEq

/-- The texts that a pattern matches.  A string may lack its closing quote. -/
inductive Matches : Pattern → List Char → Prop where
  | operator {text : String} {kind : Kind} (h : (text, kind) ∈ operators) :
      Matches (.operator kind) text.toList
  | word {c : Char} {cs : List Char} (hc : isWordStart c) (hcs : ∀ d ∈ cs, isWordPart d) :
      Matches .word (c :: cs)
  | whole {ds : List Char} (hne : ds ≠ []) (hds : ∀ d ∈ ds, d.isDigit) : Matches .number ds
  | fraction {ds es : List Char} (hne : ds ≠ []) (hds : ∀ d ∈ ds, d.isDigit) (hne' : es ≠ [])
      (hes : ∀ d ∈ es, d.isDigit) : Matches .number (ds ++ '.' :: es)
  | opened {body : List Char} (h : '"' ∉ body) : Matches .string ('"' :: body)
  | closed {body : List Char} (h : '"' ∉ body) : Matches .string ('"' :: body ++ ['"'])

/-- The kind of a token that a pattern matches.  A word has the kind of a keyword if it is that
keyword and no other kind than that of identifiers if it is none. -/
def Pattern.Gives (lexeme : List Char) (kind : Kind) : Pattern → Prop
  | .operator k => kind = k
  | .word => (∀ text k, (text, k) ∈ keywords → (kind = k ↔ lexeme = text.toList)) ∧
      (kind = .identifier ↔ ∀ text k, (text, k) ∈ keywords → lexeme ≠ text.toList)
  | .number => kind = .number
  | .string => kind = .string

/-! ### The first character -/

/-- The characters with which the texts of a pattern begin. -/
def Pattern.Starts (c : Char) : Pattern → Prop
  | .operator _ => (symbolKinds c).isSome
  | .word => isWordStart c
  | .number => c.isDigit
  | .string => c = '"'

section Starts

variable {pattern : Pattern} {c : Char} {cs text : List Char}

/-- An operator is a symbol, or a symbol with an equal sign after it. -/
theorem operators_chars : ∀ op ∈ operators, ∃ c,
    (op.1.toList = [c] ∧ (symbolKinds c).map (·.1) = some op.2) ∨
      (op.1.toList = [c, '='] ∧ (symbolKinds c).bind (·.2) = some op.2) := by
  have hchars : ∀ op ∈ operators,
      (op.1.toList = [op.1.toList.headD ' '] ∧
        (symbolKinds (op.1.toList.headD ' ')).map (·.1) = some op.2) ∨
      (op.1.toList = [op.1.toList.headD ' ', '='] ∧
        (symbolKinds (op.1.toList.headD ' ')).bind (·.2) = some op.2) := by
    decide
  exact fun op hop => ⟨_, hchars op hop⟩

/-- The symbols are operators, and so are they with the equal sign that some go on with. -/
theorem symbol_operators {kind : Kind} {withEqual : Option Kind}
    (h : symbolKinds c = some (kind, withEqual)) : (String.ofList [c], kind) ∈ operators ∧
      ∀ k ∈ withEqual, (String.ofList [c, '='], k) ∈ operators := by
  unfold symbolKinds at h
  split at h <;> cases h <;> decide

/-- A symbol begins nothing but an operator. -/
theorem starts_of_symbol {symbol : Kind × Option Kind} (h : symbolKinds c = some symbol) :
    c.isDigit = false ∧ isWordStart c = false ∧ c ≠ '"' := by
  unfold symbolKinds at h
  split at h <;> cases h <;> decide

theorem isDigit_of_isWordStart (h : isWordStart c) : c.isDigit = false := by
  rw [isWordStart, Bool.or_eq_true, beq_iff_eq] at h
  rcases h with h | rfl
  · unfold Char.isAlpha Char.isUpper Char.isLower at h
    simp only [Char.isDigit, Bool.or_eq_true, Bool.and_eq_true, Bool.and_eq_false_iff,
      decide_eq_true_eq, decide_eq_false_iff_not, UInt32.le_iff_toNat_le, ge_iff_le] at h ⊢
    have hupper : 'A'.val.toNat = 65 := rfl
    have hlower : 'a'.val.toNat = 97 := rfl
    have hdigit : '9'.val.toNat = 57 := rfl
    omega
  · decide

/-- The first character tells the pattern, but for the operators. -/
theorem Pattern.Starts.unique {other : Pattern} (h : pattern.Starts c) (h' : other.Starts c) :
    pattern = other ∨ ∃ kind kind', pattern = .operator kind ∧ other = .operator kind' := by
  have hsymbol (hsome : (symbolKinds c).isSome) :
      c.isDigit = false ∧ isWordStart c = false ∧ c ≠ '"' := by
    obtain ⟨symbol, hkinds⟩ := Option.isSome_iff_exists.mp hsome
    exact starts_of_symbol hkinds
  have hword (hstart : isWordStart c) := isDigit_of_isWordStart hstart
  have hquote : c = '"' → isWordStart c = false ∧ c.isDigit = false := by
    rintro rfl
    decide
  cases pattern <;> cases other <;> simp_all [Pattern.Starts]

/-- What a pattern matches begins with a character that tells the pattern. -/
theorem Matches.exists_cons (h : Matches pattern text) :
    ∃ c cs, text = c :: cs ∧ pattern.Starts c := by
  cases h with
  | operator hop =>
    obtain ⟨c, ⟨htext, hkind⟩ | ⟨htext, hkind⟩⟩ := operators_chars _ hop
    · rw [Option.map_eq_some_iff] at hkind
      obtain ⟨symbol, hsymbol, -⟩ := hkind
      exact ⟨c, [], htext, Option.isSome_of_mem hsymbol⟩
    · rw [Option.bind_eq_some_iff] at hkind
      obtain ⟨symbol, hsymbol, -⟩ := hkind
      exact ⟨c, ['='], htext, Option.isSome_of_mem hsymbol⟩
  | word hc _ => exact ⟨_, _, rfl, hc⟩
  | whole hne hds =>
    obtain ⟨d, ds, rfl⟩ := List.exists_cons_of_ne_nil hne
    exact ⟨d, ds, rfl, hds d List.mem_cons_self⟩
  | fraction hne hds _ _ =>
    obtain ⟨d, ds, rfl⟩ := List.exists_cons_of_ne_nil hne
    exact ⟨d, _, rfl, hds d List.mem_cons_self⟩
  | opened _ => exact ⟨_, _, rfl, rfl⟩
  | closed _ => exact ⟨_, _, rfl, rfl⟩

end Starts

/-! ### Words, numbers and strings -/

section Longest

variable {pattern : Pattern} {c : Char} {cs part text : List Char}

theorem isPrefix_takeWhile {p : Char → Bool} (hpart : part <+: text) (h : ∀ d ∈ part, p d) :
    part <+: text.takeWhile p := by
  obtain ⟨rest, rfl⟩ := hpart
  rw [List.takeWhile_append_of_pos h]
  exact List.prefix_append _ _

theorem Matches.length_le_word (h : Matches .word part) (hpart : part <+: text) :
    part.length ≤ (text.takeWhile isWordPart).length := by
  cases h with
  | word hc hcs =>
    refine (isPrefix_takeWhile hpart ?_).length_le
    exact List.forall_mem_cons.mpr ⟨isWordPart_of_isWordStart hc, hcs⟩

theorem matches_word (hc : isWordStart c) (cs : List Char) :
    Matches .word ((c :: cs).takeWhile isWordPart) := by
  rw [List.takeWhile_cons_of_pos (isWordPart_of_isWordStart hc)]
  exact .word hc fun d hd => List.mem_takeWhile_imp hd

/-- A number is at least its whole part. -/
theorem takeWhile_isPrefix_numberLexeme (text : List Char) :
    text.takeWhile Char.isDigit <+: numberLexeme text := by
  unfold numberLexeme
  dsimp only
  split
  · split
    · exact List.prefix_rfl
    · exact List.prefix_append _ _
  · exact List.prefix_rfl

theorem Matches.length_le_number (h : Matches .number part) (hpart : part <+: text) :
    part.length ≤ (numberLexeme text).length := by
  cases h with
  | whole _ hds =>
    exact Nat.le_trans (isPrefix_takeWhile hpart hds).length_le
      (takeWhile_isPrefix_numberLexeme text).length_le
  | @fraction ds es _ hds hne hes =>
    obtain ⟨rest, rfl⟩ := hpart
    -- The whole part ends at the point, and the fraction goes on at least as far as here.
    have hpoint : (ds ++ '.' :: es ++ rest).takeWhile Char.isDigit = ds := by
      rw [List.append_assoc, List.takeWhile_append_of_pos hds, List.cons_append,
        List.takeWhile_cons_of_neg (by decide), List.append_nil]
    have hafter : (ds ++ '.' :: es ++ rest).dropWhile Char.isDigit = '.' :: (es ++ rest) := by
      rw [List.append_assoc, List.dropWhile_append_of_pos hds, List.cons_append,
        List.dropWhile_cons_of_neg (by decide)]
    have hfraction : es <+: (es ++ rest).takeWhile Char.isDigit :=
      isPrefix_takeWhile (List.prefix_append _ _) hes
    have hsome : ((es ++ rest).takeWhile Char.isDigit).isEmpty = false := by
      rw [List.isEmpty_eq_false_iff]
      exact hfraction.ne_nil hne
    unfold numberLexeme
    simp only [hpoint, hafter, hsome, Bool.false_eq_true, if_false, List.length_append,
      List.length_cons]
    have hlength := hfraction.length_le
    omega

theorem matches_number (hc : c.isDigit) (cs : List Char) :
    Matches .number (numberLexeme (c :: cs)) := by
  have hwhole : ∀ d ∈ (c :: cs).takeWhile Char.isDigit, d.isDigit := fun d hd =>
    List.mem_takeWhile_imp hd
  have hne : (c :: cs).takeWhile Char.isDigit ≠ [] := takeWhile_cons_ne_nil hc
  unfold numberLexeme
  dsimp only
  split
  · split
    · exact .whole hne hwhole
    · rename_i hsome
      exact .fraction hne hwhole (by simpa using hsome) fun d hd => List.mem_takeWhile_imp hd
  · exact .whole hne hwhole

/-- The text between the quotes of a string, and its closing quote if there is one. -/
theorem stringLexeme_cases (cs : List Char) : ∃ body, '"' ∉ body ∧
    ((∃ rest, cs = body ++ '"' :: rest ∧ stringLexeme cs = '"' :: body ++ ['"']) ∨
      (cs = body ∧ stringLexeme cs = '"' :: body)) := by
  have hbody : '"' ∉ cs.takeWhile (· != '"') := by
    intro hmem
    have hne := List.mem_takeWhile_imp hmem
    simp at hne
  refine ⟨cs.takeWhile (· != '"'), hbody, ?_⟩
  have hsplit := List.takeWhile_append_dropWhile (p := (· != '"')) (l := cs)
  unfold stringLexeme
  cases hrest : cs.dropWhile (· != '"') with
  | nil =>
    rw [hrest, List.append_nil] at hsplit
    exact .inr ⟨hsplit.symm, by simp⟩
  | cons d rest =>
    have hstop := List.head?_dropWhile_not (· != '"') cs
    rw [hrest] at hstop hsplit
    obtain rfl : d = '"' := by simpa using hstop
    exact .inl ⟨rest, hsplit.symm, rfl⟩

theorem Matches.length_le_string (h : Matches .string part) (hpart : part <+: '"' :: cs) :
    part.length ≤ (stringLexeme cs).length := by
  obtain ⟨body, hbody, ⟨rest, rfl, hlexeme⟩ | ⟨rfl, hlexeme⟩⟩ := stringLexeme_cases cs
  · have hquoteless {inner : List Char} (hinner : '"' ∉ inner) : ∀ d ∈ inner, d != '"' := by
      intro d hd
      rw [bne_iff_ne]
      rintro rfl
      exact hinner hd
    -- No text without a quote goes on beyond the first one.
    have hlast {inner : List Char} (hinner : '"' ∉ inner)
        (hbegins : inner <+: body ++ '"' :: rest) : inner.length ≤ body.length := by
      have hle := isPrefix_takeWhile hbegins (hquoteless hinner)
      rw [List.takeWhile_append_of_pos (hquoteless hbody), List.takeWhile_cons_of_neg (by decide),
        List.append_nil] at hle
      exact hle.length_le
    rw [hlexeme, List.length_append, List.length_cons, List.length_singleton]
    cases h with
    | opened hinner =>
      have hle := hlast hinner ((List.prefix_cons_inj '"').mp hpart)
      rw [List.length_cons]
      omega
    | @closed inner hinner =>
      have hbegins : inner <+: body ++ '"' :: rest :=
        (List.prefix_append inner _).trans ((List.prefix_cons_inj '"').mp hpart)
      have hle := hlast hinner hbegins
      rw [List.length_append, List.length_cons, List.length_singleton]
      omega
  · rw [hlexeme]
    exact hpart.length_le

theorem matches_string (cs : List Char) : Matches .string (stringLexeme cs) := by
  obtain ⟨body, hbody, ⟨rest, -, hlexeme⟩ | ⟨-, hlexeme⟩⟩ := stringLexeme_cases cs
  · exact hlexeme ▸ .closed hbody
  · exact hlexeme ▸ .opened hbody

end Longest

/-! ### Keywords -/

theorem keywords_find {word : List Char} {keyword : String × Kind} (hmem : keyword ∈ keywords)
    (hword : word = keyword.1.toList) :
    keywords.find? (fun (text, _) => text.toList == word) = some keyword := by
  have hall : ∀ keyword ∈ keywords,
      keywords.find? (fun (text, _) => text.toList == keyword.1.toList) = some keyword := by
    decide
  rw [hword]
  exact hall keyword hmem

/-- A word has the kind of a keyword exactly if it is that keyword. -/
theorem gives_wordKind (word : List Char) : Pattern.word.Gives word (wordKind word) := by
  have hkinds : ∀ keyword ∈ keywords, keyword.2 ≠ .identifier ∧
      ∀ other ∈ keywords, other.2 = keyword.2 → other = keyword := by
    decide
  unfold Pattern.Gives wordKind
  cases hfind : keywords.find? (fun (text, _) => text.toList == word) with
  | none =>
    have hno : ∀ text kind, (text, kind) ∈ keywords → word ≠ text.toList := by
      intro text kind hmem hword
      rw [keywords_find hmem hword] at hfind
      cases hfind
    refine ⟨fun text kind hmem => ?_, iff_of_true rfl hno⟩
    exact iff_of_false (hkinds _ hmem).1.symm (hno text kind hmem)
  | some keyword =>
    have hmem := List.mem_of_find?_eq_some hfind
    have hfound := List.find?_some hfind
    have hword : word = keyword.1.toList := (beq_iff_eq.mp hfound).symm
    refine ⟨fun text kind hmem' => ⟨fun hkind => ?_, fun hword' => ?_⟩,
      iff_of_false (hkinds _ hmem).1 fun hno => hno _ _ hmem hword⟩
    · -- No two keywords have one kind.
      have hsame := (hkinds _ hmem').2 _ hmem hkind
      rw [hword, hsame]
    · rw [keywords_find hmem' hword'] at hfind
      exact congrArg (·.2) (Option.some.inj hfind).symm

/-! ### The first piece -/

/-- Where a text goes on with a token, its lexeme is the longest text that a pattern matches there,
and an error is one character where nothing is matched. -/
structure Longest (kind : Kind) (lexeme text : List Char) : Prop where
  matched : kind ≠ .error → ∃ pattern, Matches pattern lexeme ∧ pattern.Gives lexeme kind
  longest : kind ≠ .error → ∀ pattern part, Matches pattern part → part <+: text →
    part.length ≤ lexeme.length
  single : kind = .error → ∃ c, lexeme = [c]
  unmatched : kind = .error → ∀ pattern part, Matches pattern part → ¬ part <+: text

section FirstPiece

variable {pattern : Pattern} {kind : Kind} {c : Char} {cs lexeme text : List Char}

/-- A lexeme that no match of its own pattern is longer than is the longest one, where the pattern
is the only one that begins with this character. -/
theorem Longest.of_starts (pattern : Pattern) (hstart : pattern.Starts c) (hpattern : ∀ k, pattern ≠ .operator k)
    (hkind : kind ≠ .error) (hmatch : Matches pattern lexeme) (hgives : pattern.Gives lexeme kind)
    (hle : ∀ part, Matches pattern part → part <+: c :: cs → part.length ≤ lexeme.length) :
    Longest kind lexeme (c :: cs) where
  matched _ := ⟨pattern, hmatch, hgives⟩
  longest := by
    intro _ other part hother hpart
    obtain ⟨d, ds, rfl, hstart'⟩ := hother.exists_cons
    obtain ⟨rfl, -⟩ := List.cons_prefix_cons.mp hpart
    rcases hstart.unique hstart' with rfl | ⟨k, -, hk, -⟩
    · exact hle _ hother hpart
    · exact absurd hk (hpattern k)
  single h := absurd h hkind
  unmatched h := absurd h hkind

theorem wordKind_ne_error (word : List Char) : wordKind word ≠ .error := by
  have hkeywords : ∀ keyword ∈ keywords, keyword.2 ≠ .error := by decide
  unfold wordKind
  cases hfind : keywords.find? (fun (text, _) => text.toList == word) with
  | none => decide
  | some keyword => exact hkeywords keyword (List.mem_of_find?_eq_some hfind)

/-- The matches at a character that is no digit, begins no word and is no quote are operators. -/
theorem Matches.operator_of_symbol (hdigit : c.isDigit = false) (hword : isWordStart c = false)
    (hquote : c ≠ '"') {part : List Char} (h : Matches pattern part) (hpart : part <+: c :: cs) :
    ∃ kind, (part = [c] ∧ (symbolKinds c).map (·.1) = some kind) ∨
      (part = [c, '='] ∧ (symbolKinds c).bind (·.2) = some kind) := by
  obtain ⟨d, ds, hcons, hstart⟩ := h.exists_cons
  obtain ⟨rfl, -⟩ := List.cons_prefix_cons.mp (hcons ▸ hpart)
  cases h with
  | @operator text kind hop =>
    obtain ⟨d', ⟨htext, hkind⟩ | ⟨htext, hkind⟩⟩ := operators_chars _ hop
    · obtain ⟨rfl, -⟩ := List.cons.inj (htext.symm.trans hcons)
      exact ⟨kind, .inl ⟨htext, hkind⟩⟩
    · obtain ⟨rfl, -⟩ := List.cons.inj (htext.symm.trans hcons)
      exact ⟨kind, .inr ⟨htext, hkind⟩⟩
  | word => exact absurd hstart (by simp [Pattern.Starts, hword])
  | whole => exact absurd hstart (by simp [Pattern.Starts, hdigit])
  | fraction => exact absurd hstart (by simp [Pattern.Starts, hdigit])
  | opened => exact absurd hstart hquote
  | closed => exact absurd hstart hquote

/-- An operator is cut off if nothing that is matched is longer. -/
theorem Longest.of_operator (hop : (String.ofList lexeme, kind) ∈ operators)
    (hle : ∀ pattern part, Matches pattern part → part <+: text → part.length ≤ lexeme.length) :
    Longest kind lexeme text := by
  have hkind : kind ≠ .error := by
    have hall : ∀ op ∈ operators, op.2 ≠ .error := by decide
    exact hall _ hop
  have hmatch := Matches.operator hop
  rw [String.toList_ofList] at hmatch
  exact ⟨fun _ => ⟨_, hmatch, rfl⟩, fun _ => hle, fun h => absurd h hkind, fun h => absurd h hkind⟩

theorem longest_symbol (hdigit : c.isDigit = false) (hword : isWordStart c = false)
    (hquote : c ≠ '"') (h : symbolLexeme c cs = .lexeme kind lexeme) :
    Longest kind lexeme (c :: cs) := by
  have hoperator {pattern : Pattern} {part : List Char} (hmatch : Matches pattern part)
      (hpart : part <+: c :: cs) := hmatch.operator_of_symbol hdigit hword hquote hpart
  unfold symbolLexeme at h
  split at h
  · rename_i hnone
    cases h
    refine ⟨fun h => absurd rfl h, fun h => absurd rfl h, fun _ => ⟨c, rfl⟩, ?_⟩
    intro _ pattern part hmatch hpart
    obtain ⟨k, ⟨-, hk⟩ | ⟨-, hk⟩⟩ := hoperator hmatch hpart
    · rw [hnone] at hk
      cases hk
    · rw [hnone] at hk
      cases hk
  · rename_i hsome
    cases h
    refine .of_operator (symbol_operators hsome).1 fun pattern part hmatch hpart => ?_
    obtain ⟨k, ⟨rfl, -⟩ | ⟨-, hk⟩⟩ := hoperator hmatch hpart
    · exact Nat.le_refl _
    · rw [hsome] at hk
      cases hk
  · rename_i hsome
    split at h
    · cases h
      refine .of_operator ((symbol_operators hsome).2 _ rfl) fun pattern part hmatch hpart => ?_
      obtain ⟨k, ⟨rfl, -⟩ | ⟨rfl, -⟩⟩ := hoperator hmatch hpart
      · exact Nat.le_succ 1
      · exact Nat.le_refl _
    · rename_i hne
      cases h
      refine .of_operator (symbol_operators hsome).1 fun pattern part hmatch hpart => ?_
      obtain ⟨k, ⟨rfl, -⟩ | ⟨rfl, -⟩⟩ := hoperator hmatch hpart
      · exact Nat.le_refl _
      · -- The longer operator is not what comes next.
        obtain ⟨rest, hrest⟩ := hpart
        exact absurd (List.cons.inj hrest).2.symm (hne rest)

theorem longest_firstPiece (h : firstPiece c cs = .lexeme kind lexeme) :
    Longest kind lexeme (c :: cs) := by
  unfold firstPiece at h
  split at h
  · cases h
  split at h
  · cases h
  split at h
  · rename_i hquote
    obtain rfl : c = '"' := beq_iff_eq.mp hquote
    cases h
    exact .of_starts .string rfl nofun (by decide) (matches_string cs) rfl
      fun part hpart => hpart.length_le_string
  rename_i hquote
  split at h
  · rename_i hdigit
    cases h
    exact .of_starts .number hdigit nofun (by decide) (matches_number hdigit cs) rfl
      fun part hpart => hpart.length_le_number
  rename_i hdigit
  split at h
  · rename_i hword
    cases h
    exact .of_starts .word hword nofun (wordKind_ne_error _) (matches_word hword cs)
      (gives_wordKind _) fun part hpart => hpart.length_le_word
  · rename_i hword
    exact longest_symbol (by simpa using hdigit) (by simpa using hword) (by simpa using hquote) h

end FirstPiece

end LoxLang
