/-
A broken statement costs itself and nothing else.

A `Segment` of a program is a declaration without faults, or some tokens in front of a semicolon
among which there is no brace, no `for`, and no word that begins a statement but at the front.
What is read of a segment is the same wherever it stands (`Segment.contained`).  So a program made
of segments has the statements and the errors of its segments, one after the other
(`broken_statements_are_contained`).
-/
import LoxLang.Proofs.Reader.Containment

namespace LoxLang

/-! ### Tokens of derivations -/

namespace Grammar

/-- Tokens of which none ends the source. -/
def GoOn (ts : List Token) : Prop := ∀ t ∈ ts, t.kind ≠ .endOfFile

@[simp] theorem goOn_nil : GoOn [] := fun _ ht => absurd ht List.not_mem_nil

@[simp] theorem goOn_cons {t : Token} {ts : List Token} :
    GoOn (t :: ts) ↔ t.kind ≠ .endOfFile ∧ GoOn ts := List.forall_mem_cons

@[simp] theorem goOn_append {ts us : List Token} : GoOn (ts ++ us) ↔ GoOn ts ∧ GoOn us :=
  List.forall_mem_append

theorem Expression.goOn_of_tier {tier : Tier} {ts : List Token} {e : Node} (h : Expression tier ts e)
    (htier : ∀ ls, tier = .chain ls → ls <:+ levels) : GoOn ts := by
  have hsuffix {level : Level} {ls : List Level}
      (htier : ∀ ls', Tier.chain (level :: ls) = .chain ls' → ls' <:+ levels) :
      ∀ ls', Tier.chain ls = .chain ls' → ls' <:+ levels := by
    rintro _ ⟨⟩
    exact (List.suffix_cons level ls).trans (htier _ rfl)
  induction h with
  | assignment hname hequal _ ih => simp_all
  | disjunction _ ih => exact ih (by rintro _ ⟨⟩; exact List.suffix_refl _)
  | operator _ hop _ ihl ihr =>
    have hop' := (Reader.not_mem_operators (htier _ rfl) List.mem_cons_self).1
    simp only [goOn_append, goOn_cons]
    exact ⟨ihl htier, fun heq => hop' (heq ▸ hop), ihr (hsuffix htier)⟩
  | tighter _ ih => exact ih (hsuffix htier)
  | literal hj =>
    have hstarts : ∀ kind ∈ primaryStarts, kind ≠ .endOfFile := by decide
    exact goOn_cons.mpr ⟨hstarts _ (literal?_start hj), goOn_nil⟩
  | prefixed hop _ ih =>
    refine goOn_cons.mpr ⟨?_, ih (by simp)⟩
    rcases hop with hop | hop
    · simp [hop]
    · simp [hop]
  | _ => simp_all

theorem Expression.goOn {ts : List Token} {e : Node} (h : Expression .expression ts e) : GoOn ts :=
  h.goOn_of_tier (by simp)

theorem Optional.goOn {ts : List Token} {e : Node} (h : Optional ts e) : GoOn ts := by
  cases h with
  | absent => exact goOn_nil
  | present h => exact h.goOn

theorem Variable.goOn {ts : List Token} {e : Node} (h : Variable ts e) : GoOn ts := by
  cases h with
  | bare hname hsemicolon => simp [hname, hsemicolon]
  | initialized hname hequal value hsemicolon =>
    simp [hname, hequal, hsemicolon, value.goOn]

theorem Initializer.goOn {ts : List Token} {e : Node} (h : Initializer ts e) : GoOn ts := by
  cases h with
  | absent hsemicolon => simp [hsemicolon]
  | declare hword h => simp [hword, h.goOn]
  | expression h hsemicolon => simp [hsemicolon, h.goOn]

theorem Parameters.goOn {ts : List Token} {params : List Mark} (h : Parameters ts params) :
    GoOn ts := by
  induction h with
  | last hname => simp [hname]
  | more hname hcomma _ ih => simp [hname, hcomma, ih]

theorem OptionalParameters.goOn {ts : List Token} {params : List Mark}
    (h : OptionalParameters ts params) : GoOn ts := by
  cases h with
  | absent => exact goOn_nil
  | present h => exact h.goOn

/-- The end of the source is no token of a statement. -/
theorem Statement.goOn {d : Nat} {form : Form} {ts : List Token} {e : Node}
    (h : Statement d form ts e) : GoOn ts := by
  induction h with
  | noDeclaration => exact goOn_nil
  | moreDeclarations _ _ ihf ihr => exact goOn_append.mpr ⟨ihf, ihr⟩
  | function hword hname hleft hparams _ hright hopen _ hclose ih =>
    simp [hparams.goOn, *]
  | declare hword h => simp [hword, h.goOn]
  | statement _ ih => exact ih
  | expression h hsemicolon => simp [h.goOn, *]
  | print hword h hsemicolon => simp [h.goOn, *]
  | ifThen hword hleft h hright _ ih => simp [h.goOn, *]
  | ifElse hword hleft h hright _ helse _ ihf ihg => simp [h.goOn, *]
  | whileLoop hword hleft h hright _ ih => simp [h.goOn, *]
  | forLoop hword hleft he hf hsemicolon hg hright _ ih =>
    simp [he.goOn, hf.goOn, hg.goOn, *]
  | giveBack hword h hsemicolon => simp [h.goOn, *]
  | block hopen _ hclose ih => simp [*]

end Grammar

/-! ### Programs, one declaration after the other -/

namespace Reader

/-- Whether the declarations of a program end in front of a token of this kind. -/
def endsProgram (kind : Kind) : Bool := kind == .endOfFile

theorem endsBefore_endsProgram : EndsBefore atEnd fun t => endsProgram t.kind := endsBefore_end

theorem program_stops (k : Nat) : Leads 0 k [] [] (· = .endOfFile) program (pure []) :=
  (declarations_stops endsBefore_endsProgram).mono fun _ hkind => beq_iff_eq.mpr hkind

theorem program_goesOn {k : Nat} {ts us : List Token} {errors errors' : List SyntaxError}
    {found : Option Node} {es : List Node} (hts : ts ≠ []) (hgoOn : Grammar.GoOn ts)
    (hfirst : Leads 0 k ts errors (· ≠ .elseWord) declaration (pure found))
    (hrest : Leads 0 (k + ts.length) us errors' (· = .endOfFile) program (pure es))
    (hus : firstKind us .endOfFile ≠ .elseWord) :
    Leads 0 k (ts ++ us) (errors ++ errors') (· = .endOfFile) program
      (pure (found.toList ++ es)) := by
  obtain ⟨t, ts, rfl⟩ := List.exists_cons_of_ne_nil hts
  refine declarations_goesOn endsBefore_endsProgram ?_ hfirst hrest ?_
  · simpa [endsProgram] using hgoOn t List.mem_cons_self
  · rintro _ rfl
    exact hus

end Reader

/-! ### Segments -/

/-- A declaration without faults, or tokens in front of a semicolon among which is no brace, no
`for`, and no word that begins a statement but at the front. -/
inductive Segment : List Token → Prop where
  | declaration {ts : List Token} {e : Node} (h : Grammar.Statement 0 .declaration ts e) :
      Segment ts
  | ended {ts : List Token} {semicolon : Token}
      (hts : ∀ t ∈ ts, t.kind ∉ [.semicolon, .leftBrace, .rightBrace, .endOfFile, .forWord])
      (htail : ∀ t ∈ ts.tail, t.kind ∉ Reader.statementWords)
      (hfirst : ∀ t ∈ ts.head?, t.kind ≠ .elseWord) (hsemicolon : semicolon.kind = .semicolon) :
      Segment (ts ++ [semicolon])

namespace Segment

variable {ts : List Token} {last : Token}

theorem ne_nil (h : Segment ts) : ts ≠ [] := by
  cases h with
  | declaration h =>
    obtain ⟨t, rest, rfl, -⟩ := h.first (by simp)
    exact List.cons_ne_nil t rest
  | ended => simp

/-- No segment begins with an `else`. -/
theorem headD_ne_elseWord (h : Segment ts) (next : Token) : (ts.headD next).kind ≠ .elseWord := by
  cases h with
  | declaration h =>
    obtain ⟨t, rest, rfl, ht, -⟩ := h.first (by simp)
    have hstarts : ∀ kind ∈ Grammar.declarationStarts, kind ≠ .elseWord := by decide
    exact hstarts _ ht
  | @ended ts semicolon _ _ hfirst hsemicolon =>
    cases ts with
    | nil =>
      rw [List.nil_append, List.headD_cons, hsemicolon]
      decide
    | cons t ts => exact hfirst t rfl

/-- What is read of a segment is the same wherever it stands: a tree or none, and some errors,
whose indices are counted from the first token of the segment. -/
theorem contained (h : Segment ts) : ∃ (found : Option Node) (faults : List SyntaxError), ∀ k,
    Reader.Leads 0 k ts (faults.map (·.after k)) (· ≠ .elseWord) Reader.declaration
      (pure found) := by
  cases h with
  | @declaration ts e h => exact ⟨some e, [], fun k => .of_declaration h⟩
  | @ended ts semicolon hts htail hfirst hsemicolon =>
    have hne (t : Token) (ht : t ∈ ts) : t.kind ≠ .semicolon :=
      fun heq => hts t ht (by rw [heq]; decide)
    have hplain : Reader.Plain ts.tail := fun t ht hmem => by
      rcases List.mem_append.mp hmem with hmem | hmem
      · have hsub : [Kind.semicolon, .leftBrace, .rightBrace] ⊆
          [.semicolon, .leftBrace, .rightBrace, .endOfFile, .forWord] := by decide
        exact hts t (List.mem_of_mem_tail ht) (hsub hmem)
      · exact htail t ht hmem
    have hfront (t : Token) (ht : t ∈ ts.head?) :
        t.kind ∉ [Kind.semicolon, .leftBrace, .forWord] := fun hmem => by
      have hsub : [Kind.semicolon, .leftBrace, .forWord] ⊆
        [.semicolon, .leftBrace, .rightBrace, .endOfFile, .forWord] := by decide
      exact hts t (List.mem_of_mem_head? ht) (hsub hmem)
    obtain ⟨found, faults, hread⟩ :=
      Reader.declaration_contained hsemicolon hne hplain hfront
    refine ⟨found, faults, fun k s next hsees hd hk hnext => ?_⟩
    rw [hread s ⟨⟨next, hsees, hnext⟩, hd⟩, Reading.along, hk]

theorem goOn (h : Segment ts) : Grammar.GoOn ts := by
  cases h with
  | declaration h => exact h.goOn
  | ended hts _ _ hsemicolon =>
    have hgoOn : Grammar.GoOn _ := fun t ht heq => hts t ht (by rw [heq]; decide)
    simp [hgoOn, hsemicolon]

/-- What is read of a segment alone is also read of it at the front of others. -/
theorem alone (h : Segment ts) (hlast : last.kind = .endOfFile) : ∃ found : Option Node,
    (Program.ofTokens (ts ++ [last])).statements = found.toList ∧ ∀ k,
      Reader.Leads 0 k ts ((Program.ofTokens (ts ++ [last])).errors.map (·.after k))
        (· ≠ .elseWord) Reader.declaration (pure found) := by
  obtain ⟨found, faults, hlead⟩ := h.contained
  have hread := Reader.program_goesOn h.ne_nil h.goOn (hlead 0) (Reader.program_stops _)
    (by decide)
  rw [List.append_nil, SyntaxError.map_after_zero, List.append_nil, List.append_nil] at hread
  rw [Program.ofTokens_of_leads ⟨ts, last, rfl, hlast, h.goOn⟩ hlast hread]
  exact ⟨found, rfl, hlead⟩

/-- Nothing goes on with a segment that another one or the end of the source comes after. -/
theorem firstKind_flatten {segments : List (List Token)} (h : ∀ ts ∈ segments, Segment ts) :
    Reader.firstKind segments.flatten .endOfFile ≠ .elseWord := by
  cases segments with
  | nil => decide
  | cons ts segments =>
    have hts := h ts List.mem_cons_self
    obtain ⟨t, rest, rfl⟩ := List.exists_cons_of_ne_nil hts.ne_nil
    exact hts.headD_ne_elseWord t

end Segment

/-- What an error says of which token, without the place of the token. -/
def SyntaxError.blame (e : SyntaxError) : Token × SyntaxFault := (e.token, e.fault)

theorem SyntaxError.map_blame_after (n : Nat) (es : List SyntaxError) :
    (es.map (·.after n)).map blame = es.map blame := by
  rw [List.map_map]
  rfl

section

variable {segments : List (List Token)} {last : Token}

/-- What is read of some segments, one after the other. -/
theorem segments_contained (hlast : last.kind = .endOfFile) (h : ∀ ts ∈ segments, Segment ts)
    (k : Nat) : ∃ errors : List SyntaxError,
      Reader.Leads 0 k segments.flatten errors (· = .endOfFile)
        Reader.program (pure (segments.flatMap fun ts => (Program.ofTokens (ts ++ [last])).statements)) ∧
      errors.map SyntaxError.blame = segments.flatMap fun ts =>
        (Program.ofTokens (ts ++ [last])).errors.map SyntaxError.blame := by
  -- The place of the first token is part of the induction, as the errors tell their places.
  induction segments generalizing k with
  | nil => exact ⟨[], Reader.program_stops k, rfl⟩
  | cons ts segments ih =>
    obtain ⟨hts, hsegments⟩ := List.forall_mem_cons.mp h
    obtain ⟨errors, hrest, herrors⟩ := ih hsegments (k + ts.length)
    obtain ⟨found, hfound, hlead⟩ := hts.alone hlast
    have hread := Reader.program_goesOn hts.ne_nil hts.goOn (hlead k) hrest
      (Segment.firstKind_flatten hsegments)
    rw [← hfound] at hread
    refine ⟨_, hread, ?_⟩
    rw [List.map_append, SyntaxError.map_blame_after, herrors, List.flatMap_cons]

/-- A program that is made of segments has the statements of each of them alone, one after the
other, and the errors of each of them alone, of the same tokens. -/
theorem broken_statements_are_contained (hlast : last.kind = .endOfFile)
    (h : ∀ ts ∈ segments, Segment ts) :
    (Program.ofTokens (segments.flatten ++ [last])).statements
        = segments.flatMap (fun ts => (Program.ofTokens (ts ++ [last])).statements) ∧
      (Program.ofTokens (segments.flatten ++ [last])).errors.map SyntaxError.blame
        = segments.flatMap fun ts =>
          (Program.ofTokens (ts ++ [last])).errors.map SyntaxError.blame := by
  obtain ⟨errors, hlead, herrors⟩ := segments_contained hlast h 0
  have hgoOn : Grammar.GoOn segments.flatten := fun t ht => by
    obtain ⟨ts, hts, ht⟩ := List.mem_flatten.mp ht
    exact (h ts hts).goOn t ht
  have hends : EndsOnce (segments.flatten ++ [last]) :=
    ⟨segments.flatten, last, rfl, hlast, hgoOn⟩
  rw [Program.ofTokens_of_leads hends hlast hlead]
  exact ⟨rfl, herrors⟩

/-- In `print 1 + ; a;` the first statement has no second operand, and the semicolon is blamed.
The second statement is read as if it stood alone. -/
theorem broken_statements_are_contained_of_two :
    let semicolon := tokenIn 10 .semicolon ";"
    let broken := [tokenIn 1 .printWord "print", tokenIn 7 .number "1", tokenIn 9 .plus "+",
      semicolon]
    let a := tokenIn 12 .identifier "a"
    let whole := [a, tokenIn 13 .semicolon ";"]
    let last := tokenIn 14 .endOfFile ""
    last.kind = .endOfFile ∧ (∀ ts ∈ [broken, whole], Segment ts) ∧
      (Program.ofTokens ([broken, whole].flatten ++ [last])).statements
        = [.evaluate (.reference a.mark)] ∧
      (Program.ofTokens ([broken, whole].flatten ++ [last])).errors.map SyntaxError.blame
        = [(semicolon, .expression)] := by
  intro semicolon broken a whole last
  have hbroken : Segment ([tokenIn 1 .printWord "print", tokenIn 7 .number "1",
      tokenIn 9 .plus "+"] ++ [semicolon]) :=
    .ended (by decide) (by decide) (by decide) rfl
  have hwhole : Segment ([a] ++ [tokenIn 13 .semicolon ";"]) :=
    .declaration (.statement (.expression (.ofName rfl) rfl))
  have hsegments : ∀ ts ∈ [broken, whole], Segment ts := by
    simpa using ⟨hbroken, hwhole⟩
  have hlast : last.kind = .endOfFile := rfl
  obtain ⟨hstatements, herrors⟩ := broken_statements_are_contained hlast hsegments
  exact ⟨hlast, hsegments, hstatements.trans rfl, herrors.trans rfl⟩

end

end LoxLang
