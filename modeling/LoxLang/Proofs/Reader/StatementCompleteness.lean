/-
Every program is read.

If some tokens are a statement, and an `else` that comes next does not belong to it, then the
readers of statements pass just these tokens, record no error, and find the tree of the
statement.  `Reader.Followed` says for each sort of statement what is proved, and there is one
lemma for each rule of the grammar, so that `followed` is an induction on the derivation.

* `program_of_derived` — declarations in front of the end of the source are read as a program.
-/
import LoxLang.Proofs.Reader.ExpressionCompleteness
import LoxLang.Proofs.Reader.StatementSoundness

namespace LoxLang.Reader

open Grammar Reading

variable {s : Reading} {ts us vs ws : List Token} {t next : Token} {e f g h : Node}

/-! ### Parts of statements -/

theorem expect_of_sees {β : Type} {kind : Kind} {fault : SyntaxFault} {q : Token → Reader β}
    (hsees : s.Sees (t :: ts) next) (ht : t.kind = kind) :
    (expect kind fault >>= q) s = q t (s.skip 1) := by
  rw [expect_bind, if_pos (by rw [hsees.current, ht]), hsees.current]

/-- No punctuation goes on with an expression. -/
theorem not_continuing {kind : Kind} (hnext : next.kind = kind)
    (hkind : kind ∉ Kind.equal :: continuing levels) :
    next.kind ∉ Kind.equal :: continuing levels := by
  rwa [hnext]

theorem optionalBefore_of_derived {kind : Kind} (he : Optional ts e) (hsees : s.Sees ts next)
    (hnext : next.kind = kind) (hkind : kind ∉ Kind.equal :: continuing levels ++ starts) :
    optionalBefore kind s = .ok e (s.skip ts.length) := by
  rw [optionalBefore, check_bind]
  rw [List.mem_append, not_or] at hkind
  cases he with
  | absent =>
    rw [if_pos (by rw [hsees.current_of_nil, hnext]; simp)]
    rfl
  | present he =>
    obtain ⟨t, rest, rfl, ht, -⟩ := he.first
    have hcurrent : s.cursor.current.kind ≠ kind := by
      rw [hsees.current]
      rintro rfl
      exact hkind.2 ht
    rw [if_neg (by simpa using hcurrent)]
    exact expression_of_derived he hsees (not_continuing hnext hkind.1)

theorem orMissing_of_absent {kind : Kind} {p : Reader Node} (hsees : s.Sees [] next)
    (hnext : next.kind ≠ kind) : orMissing kind p s = .ok .missing s := by
  rw [orMissing_apply, if_neg (by rwa [hsees.current_of_nil])]

theorem orMissing_of_present {kind : Kind} {p : Reader Node} {s' : Reading}
    (hsees : s.Sees (t :: ts) next) (ht : t.kind = kind) (hp : p (s.skip 1) = .ok e s') :
    orMissing kind p s = .ok e s' := by
  rw [orMissing_apply, if_pos (by rw [hsees.current, ht]), hp]

theorem variableFrom_of_bare {name semicolon : Token} (hname : name.kind = .identifier)
    (hsemicolon : semicolon.kind = .semicolon) (hsees : s.Sees [name, semicolon] next) :
    variableFrom s = .ok (.declare name.mark .missing) (s.skip 2) := by
  have hmissing : orMissing .equal expression (s.skip 1) = .ok .missing (s.skip 1) :=
    orMissing_of_absent hsees.head.skip_all (by rw [hsemicolon]; decide)
  rw [variableFrom_eq, expect_of_sees hsees hname, bind_of_ok hmissing,
    expect_of_sees hsees.tail hsemicolon, skip_skip]
  rfl

theorem variableFrom_of_initialized {name equal semicolon : Token}
    (hname : name.kind = .identifier) (hequal : equal.kind = .equal)
    (he : Expression .expression ts e) (hsemicolon : semicolon.kind = .semicolon)
    (hsees : s.Sees (name :: equal :: ts ++ [semicolon]) next) :
    variableFrom s
      = .ok (.declare name.mark e) (s.skip (name :: equal :: ts ++ [semicolon]).length) := by
  have hsees' : s.Sees (name :: equal :: (ts ++ [semicolon])) next := by simpa using hsees
  have hvalue := expression_of_derived he hsees'.tail.tail.left
    (not_continuing hsemicolon (by decide))
  rw [variableFrom_eq, expect_of_sees hsees' hname,
    bind_of_ok (orMissing_of_present hsees'.tail hequal hvalue),
    expect_of_sees hsees'.tail.tail.skip hsemicolon, skip_append, skip_cons, skip_cons]
  rfl

theorem variableFrom_of_derived (he : Variable ts e) (hsees : s.Sees ts next) :
    variableFrom s = .ok e (s.skip ts.length) := by
  cases he with
  | bare hname hsemicolon => exact variableFrom_of_bare hname hsemicolon hsees
  | initialized hname hequal he hsemicolon =>
    exact variableFrom_of_initialized hname hequal he hsemicolon hsees

theorem expressionStatement_of_derived {semicolon : Token} (he : Expression .expression ts e)
    (hsemicolon : semicolon.kind = .semicolon) (hsees : s.Sees (ts ++ [semicolon]) next) :
    expressionStatement s = .ok (.evaluate e) (s.skip (ts ++ [semicolon]).length) := by
  have hread := expression_of_derived he hsees.left (not_continuing hsemicolon (by decide))
  rw [expressionStatement, bind_of_ok hread, expect_of_sees hsees.skip hsemicolon, skip_append]
  rfl

theorem forInitializer_of_derived (he : Initializer ts e) (hsees : s.Sees ts next) :
    forInitializer s = .ok e (s.skip ts.length) := by
  rw [forInitializer, accept_bind]
  cases he with
  | absent hsemicolon =>
    rw [if_pos (by rw [hsees.current, hsemicolon])]
    rfl
  | declare hword he =>
    rw [if_neg (by rw [hsees.current, hword]; decide), if_neg Bool.false_ne_true, accept_bind,
      if_pos (by rw [hsees.current, hword]), if_pos rfl, variableFrom_of_derived he hsees.tail,
      skip_cons]
  | expression he hsemicolon =>
    obtain ⟨t, rest, rfl, ht, -⟩ := he.first
    have hcurrent : s.cursor.current = t := hsees.current
    have hkinds : ∀ kind ∈ starts, kind ≠ .semicolon ∧ kind ≠ .varWord := by decide
    obtain ⟨hnotSemicolon, hnotVar⟩ := hkinds _ ht
    rw [if_neg (by rwa [hcurrent]), if_neg Bool.false_ne_true, accept_bind,
      if_neg (by rwa [hcurrent]), if_neg Bool.false_ne_true]
    exact expressionStatement_of_derived he hsemicolon hsees

theorem parenthesized_of_derived {before after : SyntaxFault} {leftParen rightParen : Token}
    (hleft : leftParen.kind = .leftParen) (he : Expression .expression ts e)
    (hright : rightParen.kind = .rightParen)
    (hsees : s.Sees (leftParen :: (ts ++ rightParen :: us)) next) :
    parenthesized before after s = .ok e (((s.skip 1).skip ts.length).skip 1) := by
  have hread := expression_of_derived he hsees.tail.left (not_continuing hright (by decide))
  rw [parenthesized, expect_of_sees hsees hleft, bind_of_ok hread,
    expect_of_sees hsees.tail.skip hright]
  rfl

/-! ### Parameters -/

theorem parameter_of_sees {name : Token} (hname : name.kind = .identifier)
    (hsees : s.Sees (name :: ts) next) : parameter s = .ok name.mark (s.skip 1) := by
  rw [parameter, expect_of_sees hsees hname]
  rfl

theorem separated_of_parameters {params : List Mark} (h : Parameters ts params) {m count : Nat}
    (hsees : s.Sees ts next) (hm : s.rest.length ≤ m) (hnext : next.kind = .rightParen)
    (hcount : count + params.length ≤ maxArguments) :
    separated parameter .tooManyParameters m count s = .ok params (s.skip ts.length) := by
  induction h generalizing s m count with
  | last hname =>
    rw [List.length_singleton] at hcount
    obtain ⟨m, rfl⟩ := exists_succ_of_le hm
    have hlast : (s.skip 1).cursor.current.kind ≠ .comma := by
      rw [hsees.tail.current_of_nil, hnext]
      decide
    rw [separated_of_count (by omega)]
    exact separatedStep_of_last (parameter_of_sees hname hsees) hlast
  | more hname hcomma _ ih =>
    rw [List.length_cons] at hcount
    obtain ⟨m, rfl⟩ := exists_succ_of_le hm
    have hlength := hsees.length_tail
    have hlength' := hsees.tail.length_tail
    have hothers : separated parameter .tooManyParameters m (count + 1) ((s.skip 1).skip 1)
        = .ok _ _ := ih hsees.tail.tail (by omega) (by omega)
    rw [separated_of_count (by omega), skip_cons, skip_cons]
    exact separatedStep_of_comma (parameter_of_sees hname hsees)
      (by rw [hsees.tail.current, hcomma]) hothers

theorem Parameters.first {params : List Mark} (h : Parameters ts params) :
    ∃ t rest, ts = t :: rest ∧ t.kind = .identifier := by
  cases h with
  | last hname => exact ⟨_, _, rfl, hname⟩
  | more hname => exact ⟨_, _, rfl, hname⟩

theorem listing_of_parameters {params : List Mark} (h : OptionalParameters ts params)
    (hcount : params.length ≤ maxArguments) (hsees : s.Sees ts next)
    (hnext : next.kind = .rightParen) :
    listing parameter .tooManyParameters s = .ok params (s.skip ts.length) := by
  cases h with
  | absent => exact listing_of_none (by rw [hsees.current_of_nil, hnext])
  | present h =>
    obtain ⟨t, rest, rfl, ht⟩ := Parameters.first h
    rw [listing_of_separated (by rw [hsees.current, ht]; decide)]
    exact separated_of_parameters h hsees (by omega) hnext (by omega)

/-! ### What is proved of each sort of statement -/

/-- Where declarations stop: not at a token with which one begins, nor at an `else`. -/
structure StopsAt (stop : Reader Bool) (next : Token) : Prop where
  here (s : Reading) : s.cursor.current = next → stop s = .ok true s
  before (s : Reading) : s.cursor.current.kind ∈ declarationStarts → stop s = .ok false s
  notElse : next.kind ≠ .elseWord

/-- With at most so many tokens to be read, declarations are read with enough levels. -/
def Enough (declaration : Reader (Option Node)) (n : Nat) : Prop :=
  ∀ s : Reading, s.rest.length ≤ n →
    ∃ k, 2 * s.rest.length ≤ k ∧ declaration s = declarationUpTo k s

theorem enough_upTo {n k : Nat} (h : 2 * n ≤ k) : Enough (declarationUpTo k) n :=
  fun _ hs => ⟨k, by omega, rfl⟩

theorem enough_declaration (n : Nat) : Enough declaration n :=
  fun _ _ => ⟨_, le_rfl, declaration_apply⟩

/-- A statement of this sort is read, in so many bodies of functions.  The bounds on levels are
those of `statements_upTo_reads`. -/
def Followed (d : Nat) : Form → List Token → Node → Prop
  | .declarations, ts, e => ∀ es, e = .many es → ∀ declaration m stop s next, s.Sees ts next →
    s.depth = d → Enough declaration s.rest.length → s.rest.length ≤ m → StopsAt stop next →
      declarationsUntil stop declaration m s = .ok es (s.skip ts.length)
  | .declaration, ts, e => ∀ n s next, s.Sees ts next → s.depth = d → 2 * s.rest.length ≤ n →
    next.kind ≠ .elseWord → declarationUpTo n s = .ok (some e) (s.skip ts.length)
  | .statement ajar, ts, e => ∀ n s next, s.Sees ts next → s.depth = d →
    2 * s.rest.length ≤ n + 1 → (ajar = true → next.kind ≠ .elseWord) →
      statementUpTo n s = .ok e (s.skip ts.length)

variable {d : Nat} {ajar : Bool} {word leftParen rightParen semicolon : Token}

/-! ### Declarations -/

theorem declarationsUntil_of_end {stop : Reader Bool} {declaration : Reader (Option Node)} {m : Nat}
    (h : stop s = .ok true s) : declarationsUntil stop declaration (m + 1) s = .ok [] s := by
  rw [declarationsUntil, bind_of_ok h]
  rfl

theorem declarationsUntil_of_more {stop : Reader Bool} {declaration : Reader (Option Node)}
    {m : Nat} {es : List Node} {s' s'' : Reading} (h : stop s = .ok false s)
    (hfirst : declaration s = .ok (some e) s')
    (hrest : declarationsUntil stop declaration m s' = .ok es s'') :
    declarationsUntil stop declaration (m + 1) s = .ok (e :: es) s'' := by
  rw [declarationsUntil, bind_of_ok h, if_neg Bool.false_ne_true, bind_of_ok hfirst,
    bind_of_ok hrest]
  rfl

theorem Followed.noDeclaration : Followed d .declarations [] (.many []) := by
  intro es hes declaration m stop s next hsees hd henough hm hstop
  obtain rfl : [] = es := by
    injection hes
  obtain ⟨m, rfl⟩ := exists_succ_of_le hm
  exact declarationsUntil_of_end (hstop.here s hsees.current_of_nil)

/-- What comes after a declaration is another one, or the end of the declarations. -/
theorem not_else_after {es : List Node} (h : Statement d .declarations us (.many es))
    (hsees : s.Sees (ts ++ us) next) (hnext : next.kind ≠ .elseWord) :
    ∃ t, s.Sees ts t ∧ t.kind ≠ .elseWord := by
  cases h with
  | noDeclaration =>
    rw [List.append_nil] at hsees
    exact ⟨next, hsees, hnext⟩
  | moreDeclarations first _ =>
    obtain ⟨t, rest, rfl, ht, -⟩ := first.first (by simp)
    refine ⟨t, hsees.left, fun heq => ?_⟩
    rw [heq] at ht
    exact absurd ht (by decide)

theorem Followed.moreDeclarations {es : List Node} (hfirst : Statement d .declaration ts e)
    (hrest : Statement d .declarations us (.many es)) (ihf : Followed d .declaration ts e)
    (ihr : Followed d .declarations us (.many es)) :
    Followed d .declarations (ts ++ us) (.many (e :: es)) := by
  intro fs hfs declaration m stop s next hsees hd henough hm hstop
  obtain rfl : e :: es = fs := by
    injection hfs
  obtain ⟨m, rfl⟩ := exists_succ_of_le hm
  -- An `else` would belong to the first declaration, so it must not come after it.
  obtain ⟨t, hsees', ht⟩ := not_else_after hrest hsees hstop.notElse
  obtain ⟨u, us', rfl, hu, -⟩ := hfirst.first (by simp)
  have hlength := hsees'.length
  have hpos : 0 < (u :: us').length := List.length_pos_of_ne_nil (List.cons_ne_nil _ _)
  have hbefore : stop s = .ok false s := hstop.before s (by rw [hsees'.current]; exact hu)
  obtain ⟨k, hk, hdeclaration⟩ := henough s le_rfl
  have hread := hdeclaration.trans (ihf k s t hsees' hd hk ht)
  have hothers := ihr es rfl declaration m stop (s.skip (u :: us').length) next hsees.skip
    (by rw [skip_depth, hd]) (fun s' hs' => henough s' (by omega)) (by omega) hstop
  rw [List.length_append, ← skip_skip]
  exact declarationsUntil_of_more hbefore hread hothers

theorem inFunction_of_ok {α : Type} {p : Reader α} {a : α} {n : Nat}
    (h : p { s with depth := s.depth + 1 }
      = .ok a (Reading.skip { s with depth := s.depth + 1 } n)) :
    inFunction p s = .ok a (s.skip n) := by
  rw [inFunction, h]
  dsimp only
  rw [skip_withDepth]
  exact congrArg (Reply.ok a) (skip_withDepth s s.depth n).symm

theorem blockBody_of_ok {declaration : Reader (Option Node)} {es : List Node} {s' : Reading}
    (h : declarationsUntil atBlockEnd declaration (2 * s.rest.length) s = .ok es s')
    (hclose : s'.cursor.current.kind = .rightBrace) :
    blockBody declaration s = .ok es (s'.skip 1) := by
  have hread : bounded (declarationsUntil atBlockEnd declaration) s = .ok es s' := by
    rw [bounded_apply, h]
  rw [blockBody, bind_of_ok hread, expect_bind, if_pos hclose]
  rfl

theorem blockBody_of_followed {es : List Node} {n : Nat} {rightBrace : Token}
    (h : Followed d .declarations ts (.many es)) (hclose : rightBrace.kind = .rightBrace)
    (hsees : s.Sees (ts ++ [rightBrace]) next) (hd : s.depth = d) (hn : 2 * s.rest.length ≤ n) :
    blockBody (declarationUpTo n) s = .ok es (s.skip (ts ++ [rightBrace]).length) := by
  have hstop : StopsAt atBlockEnd rightBrace := by
    refine ⟨?_, ?_, by rw [hclose]; decide⟩
    · intro s hs
      rw [atBlockEnd, Cursor.check, hs, hclose]
      rfl
    · intro s hs
      have hkinds : ∀ kind ∈ declarationStarts,
          ([Kind.rightBrace].contains kind || kind == .endOfFile) = false := by decide
      rw [atBlockEnd, Cursor.check, Cursor.isAtEnd, hkinds _ hs]
  have hread := h es rfl (declarationUpTo n) (2 * s.rest.length) atBlockEnd s rightBrace hsees.left
    hd (enough_upTo hn) (by omega) hstop
  rw [List.length_append, List.length_singleton, ← skip_skip]
  exact blockBody_of_ok hread (by rw [hsees.skip.current, hclose])

/-- What the body of a function holds is in one more body of a function. -/
theorem inFunction_of_followed {es : List Node} {n : Nat} {rightBrace : Token}
    (h : Followed (d + 1) .declarations ts (.many es)) (hclose : rightBrace.kind = .rightBrace)
    (hsees : s.Sees (ts ++ [rightBrace]) next) (hd : s.depth = d) (hn : 2 * s.rest.length ≤ n) :
    inFunction (blockBody (declarationUpTo n)) s
      = .ok es (s.skip (ts ++ [rightBrace]).length) := by
  have hsees' : Reading.Sees { s with depth := s.depth + 1 } (ts ++ [rightBrace]) next := hsees
  exact inFunction_of_ok (blockBody_of_followed h hclose hsees' (congrArg (· + 1) hd) hn)

/-- The rest of the declaration of a function, given how its body is read. -/
theorem function_of_ok {declaration : Reader (Option Node)} {name leftBrace : Token}
    {params : List Mark} {es : List Node} (hname : name.kind = .identifier)
    (hleft : leftParen.kind = .leftParen) (hparams : OptionalParameters ts params)
    (hcount : params.length ≤ maxArguments) (hright : rightParen.kind = .rightParen)
    (hopen : leftBrace.kind = .leftBrace)
    (hsees : s.Sees (name :: leftParen :: (ts ++ rightParen :: leftBrace :: us)) next)
    (hbody : inFunction (blockBody declaration)
        (((((s.skip 1).skip 1).skip ts.length).skip 1).skip 1)
      = .ok es ((((((s.skip 1).skip 1).skip ts.length).skip 1).skip 1).skip us.length)) :
    function declaration s = .ok (.function name.mark params es)
      (s.skip (name :: leftParen :: (ts ++ rightParen :: leftBrace :: us)).length) := by
  have hread := listing_of_parameters hparams hcount hsees.tail.tail.left hright
  have hskip := hsees.tail.tail.skip
  rw [function, expect_of_sees hsees hname, expect_of_sees hsees.tail hleft, bind_of_ok hread,
    expect_of_sees hskip hright, expect_of_sees hskip.tail hopen, bind_of_ok hbody]
  simp only [skip_append, skip_cons]
  rfl

/-! ### Statements -/

section

variable {declaration : Reader (Option Node)} {statement : Reader Node} {s₁ s₂ : Reading}

theorem statementStep_of_print (h : s.cursor.current.kind = .printWord) :
    statementStep declaration statement s = printFrom (s.skip 1) := by
  rw [statementStep, peek_bind, h]
  rfl

theorem statementStep_of_if (h : s.cursor.current.kind = .ifWord) :
    statementStep declaration statement s = ifFrom statement (s.skip 1) := by
  rw [statementStep, peek_bind, h]
  rfl

theorem statementStep_of_while (h : s.cursor.current.kind = .whileWord) :
    statementStep declaration statement s = whileFrom statement (s.skip 1) := by
  rw [statementStep, peek_bind, h]
  rfl

theorem statementStep_of_for (h : s.cursor.current.kind = .forWord) :
    statementStep declaration statement s = forFrom statement (s.skip 1) := by
  rw [statementStep, peek_bind, h]
  rfl

theorem statementStep_of_return (h : s.cursor.current.kind = .returnWord) :
    statementStep declaration statement s = returnStatement s := by
  rw [statementStep, peek_bind, h]

theorem statementStep_of_block {es : List Node} (h : s.cursor.current.kind = .leftBrace)
    (hbody : blockBody declaration (s.skip 1) = .ok es s₁) :
    statementStep declaration statement s = .ok (.block es) s₁ := by
  rw [statementStep, peek_bind, h]
  dsimp only
  rw [advance_bind, bind_of_ok hbody]
  rfl

theorem statementStep_of_expression (h : s.cursor.current.kind ∈ starts) :
    statementStep declaration statement s = expressionStatement s := by
  rw [statementStep, peek_bind]
  simp only [starts, primaryStarts, List.mem_cons, List.not_mem_nil, or_false] at h
  rcases h with h | h | h | h | h | h | h | h | h
  all_goals rw [h]

theorem ifFrom_of_ok (hleft : leftParen.kind = .leftParen) (he : Expression .expression ts e)
    (hright : rightParen.kind = .rightParen)
    (hsees : s.Sees (leftParen :: (ts ++ rightParen :: us)) next)
    (hthen : statement (((s.skip 1).skip ts.length).skip 1) = .ok f s₁)
    (helse : orMissing .elseWord statement s₁ = .ok g s₂) :
    ifFrom statement s = .ok (.branch e f g) s₂ := by
  rw [ifFrom_eq, bind_of_ok (parenthesized_of_derived hleft he hright hsees), bind_of_ok hthen,
    bind_of_ok helse]
  rfl

theorem whileFrom_of_ok (hleft : leftParen.kind = .leftParen) (he : Expression .expression ts e)
    (hright : rightParen.kind = .rightParen)
    (hsees : s.Sees (leftParen :: (ts ++ rightParen :: us)) next)
    (hbody : statement (((s.skip 1).skip ts.length).skip 1) = .ok f s₁) :
    whileFrom statement s = .ok (.loop e f) s₁ := by
  rw [whileFrom_eq, bind_of_ok (parenthesized_of_derived hleft he hright hsees), bind_of_ok hbody]
  rfl

theorem forFrom_of_ok (hleft : leftParen.kind = .leftParen) (he : Initializer ts e)
    (hf : Optional us f) (hsemicolon : semicolon.kind = .semicolon) (hg : Optional vs g)
    (hright : rightParen.kind = .rightParen)
    (hsees : s.Sees (leftParen :: (ts ++ (us ++ semicolon :: (vs ++ rightParen :: ws)))) next)
    (hbody : statement ((((((s.skip 1).skip ts.length).skip us.length).skip 1).skip vs.length).skip 1)
      = .ok h s₁) :
    forFrom statement s
      = .ok (afterInitializer (.loop (orTrue f) (thenIncrement h g)) e) s₁ := by
  obtain ⟨t, hinitializer⟩ := hsees.tail.split
  have hcondition := hsees.tail.skip
  have hclause := hcondition.skip
  have hincrement := hclause.tail
  have hread := optionalBefore_of_derived hf hcondition.left hsemicolon (by decide)
  have hread' := optionalBefore_of_derived hg hincrement.left hright (by decide)
  rw [forFrom, expect_of_sees hsees hleft, bind_of_ok (forInitializer_of_derived he hinitializer),
    bind_of_ok hread, expect_of_sees hclause hsemicolon, bind_of_ok hread',
    expect_of_sees hincrement.skip hright, bind_of_ok hbody, ← forLoop_eq]
  rfl

theorem printFrom_of_derived (he : Expression .expression ts e)
    (hsemicolon : semicolon.kind = .semicolon) (hsees : s.Sees (ts ++ [semicolon]) next) :
    printFrom s = .ok (.print e) (s.skip (ts ++ [semicolon]).length) := by
  have hread := expression_of_derived he hsees.left (not_continuing hsemicolon (by decide))
  rw [printFrom, bind_of_ok hread, expect_of_sees hsees.skip hsemicolon, skip_append]
  rfl

theorem returnStatement_of_derived (he : Optional ts e) (hsemicolon : semicolon.kind = .semicolon)
    (hdepth : s.depth ≠ 0) (hsees : s.Sees (word :: (ts ++ [semicolon])) next) :
    returnStatement s
      = .ok (.giveBack word.mark e) (s.skip (word :: (ts ++ [semicolon])).length) := by
  have hread := optionalBefore_of_derived he hsees.tail.left hsemicolon (by decide)
  rw [returnStatement_apply, if_neg hdepth, hsees.current, returnFrom, bind_of_ok hread,
    expect_of_sees hsees.tail.skip hsemicolon, skip_cons, skip_append]
  rfl

end

/-! ### One rule at a time -/

theorem Followed.expression (he : Expression .expression ts e)
    (hsemicolon : semicolon.kind = .semicolon) :
    Followed d (.statement false) (ts ++ [semicolon]) (.evaluate e) := by
  intro n s next hsees hd hn hnext
  obtain ⟨n, rfl⟩ := exists_succ_of_levels hn
  have hread := expressionStatement_of_derived he hsemicolon hsees
  obtain ⟨t, rest, rfl, ht, -⟩ := he.first
  have hcurrent : s.cursor.current = t := hsees.current
  exact (statementStep_of_expression (hcurrent ▸ ht)).trans hread

theorem Followed.print (hword : word.kind = .printWord) (he : Expression .expression ts e)
    (hsemicolon : semicolon.kind = .semicolon) :
    Followed d (.statement false) (word :: ts ++ [semicolon]) (.print e) := by
  intro n s next hsees hd hn hnext
  obtain ⟨n, rfl⟩ := exists_succ_of_levels hn
  have hsees' : s.Sees (word :: (ts ++ [semicolon])) next := hsees
  rw [List.cons_append, skip_cons]
  exact (statementStep_of_print (hsees'.current ▸ hword)).trans
    (printFrom_of_derived he hsemicolon hsees'.tail)

/-- What lies ahead after a word and a condition in parentheses. -/
theorem sees_after_condition (hsees : s.Sees (word :: leftParen :: (ts ++ rightParen :: us)) next) :
    ((((s.skip 1).skip 1).skip ts.length).skip 1).Sees us next ∧
      s.rest.length = ((((s.skip 1).skip 1).skip ts.length).skip 1).rest.length + ts.length + 3 := by
  have hword := hsees.length_tail
  have hleft := hsees.tail.length_tail
  have hcondition := hsees.tail.tail.left.length
  have hright := hsees.tail.tail.skip.length_tail
  exact ⟨hsees.tail.tail.skip.tail, by omega⟩

theorem Followed.ifThen (hword : word.kind = .ifWord) (hleft : leftParen.kind = .leftParen)
    (he : Expression .expression ts e) (hright : rightParen.kind = .rightParen)
    (ih : Followed d (.statement ajar) us f) :
    Followed d (.statement true) (word :: leftParen :: ts ++ rightParen :: us)
      (.branch e f .missing) := by
  intro n s next hsees hd hn hnext
  obtain ⟨n, rfl⟩ := exists_succ_of_levels hn
  have hsees' : s.Sees (word :: leftParen :: (ts ++ rightParen :: us)) next := hsees
  obtain ⟨hbranch, hlength⟩ := sees_after_condition hsees'
  have hthen := ih n _ next hbranch (by simp only [skip_depth, hd]) (by omega) fun _ => hnext rfl
  have helse := orMissing_of_absent (p := statementUpTo n) hbranch.skip_all (hnext rfl)
  have hend : s.skip (word :: leftParen :: ts ++ rightParen :: us).length
      = ((((s.skip 1).skip 1).skip ts.length).skip 1).skip us.length := by
    simp only [skip_append, skip_cons]
  rw [hend]
  exact (statementStep_of_if (hsees'.current ▸ hword)).trans
    (ifFrom_of_ok hleft he hright hsees'.tail hthen helse)

theorem Followed.ifElse {elseWord : Token} (hword : word.kind = .ifWord)
    (hleft : leftParen.kind = .leftParen) (he : Expression .expression ts e)
    (hright : rightParen.kind = .rightParen) (ihf : Followed d (.statement false) us f)
    (helse : elseWord.kind = .elseWord) (ihg : Followed d (.statement ajar) vs g) :
    Followed d (.statement ajar)
      (word :: leftParen :: ts ++ rightParen :: us ++ elseWord :: vs) (.branch e f g) := by
  intro n s next hsees hd hn hnext
  obtain ⟨n, rfl⟩ := exists_succ_of_levels hn
  have hsees' : s.Sees (word :: leftParen :: (ts ++ rightParen :: (us ++ elseWord :: vs))) next := by
    simpa using hsees
  obtain ⟨hbranches, hlength⟩ := sees_after_condition hsees'
  have hlength' := hbranches.left.length
  have hlength'' := hbranches.skip.length_tail
  have hthen := ihf n _ elseWord hbranches.left (by simp only [skip_depth, hd]) (by omega)
    -- The first branch is not ajar, so it may be followed by an `else`.
    fun hajar => absurd hajar Bool.false_ne_true
  have hread := ihg n _ next hbranches.skip.tail (by simp only [skip_depth, hd]) (by omega) hnext
  have hend : s.skip (word :: leftParen :: ts ++ rightParen :: us ++ elseWord :: vs).length
      = ((((((s.skip 1).skip 1).skip ts.length).skip 1).skip us.length).skip 1).skip vs.length := by
    simp only [skip_append, skip_cons]
  rw [hend]
  exact (statementStep_of_if (hsees'.current ▸ hword)).trans
    (ifFrom_of_ok hleft he hright hsees'.tail hthen
      (orMissing_of_present hbranches.skip helse hread))

theorem Followed.whileLoop (hword : word.kind = .whileWord) (hleft : leftParen.kind = .leftParen)
    (he : Expression .expression ts e) (hright : rightParen.kind = .rightParen)
    (ih : Followed d (.statement ajar) us f) :
    Followed d (.statement ajar) (word :: leftParen :: ts ++ rightParen :: us) (.loop e f) := by
  intro n s next hsees hd hn hnext
  obtain ⟨n, rfl⟩ := exists_succ_of_levels hn
  have hsees' : s.Sees (word :: leftParen :: (ts ++ rightParen :: us)) next := hsees
  obtain ⟨hbody, hlength⟩ := sees_after_condition hsees'
  have hread := ih n _ next hbody (by simp only [skip_depth, hd]) (by omega) hnext
  have hend : s.skip (word :: leftParen :: ts ++ rightParen :: us).length
      = ((((s.skip 1).skip 1).skip ts.length).skip 1).skip us.length := by
    simp only [skip_append, skip_cons]
  rw [hend]
  exact (statementStep_of_while (hsees'.current ▸ hword)).trans
    (whileFrom_of_ok hleft he hright hsees'.tail hread)

theorem Followed.forLoop (hword : word.kind = .forWord) (hleft : leftParen.kind = .leftParen)
    (he : Initializer ts e) (hf : Optional us f) (hsemicolon : semicolon.kind = .semicolon)
    (hg : Optional vs g) (hright : rightParen.kind = .rightParen)
    (ih : Followed d (.statement ajar) ws h) :
    Followed d (.statement ajar)
      (word :: leftParen :: ts ++ us ++ semicolon :: vs ++ rightParen :: ws)
      (afterInitializer (.loop (orTrue f) (thenIncrement h g)) e) := by
  intro n s next hsees hd hn hnext
  obtain ⟨n, rfl⟩ := exists_succ_of_levels hn
  have hsees' : s.Sees (word :: leftParen :: (ts ++ (us ++ semicolon :: (vs ++ rightParen :: ws))))
      next := by simpa using hsees
  have hclause := hsees'.tail.tail.skip.skip
  have hbody := hclause.tail.skip.tail
  have h₁ := hsees'.length_tail
  have h₂ := hsees'.tail.length_tail
  obtain ⟨t, ht⟩ := hsees'.tail.tail.split
  have h₃ := ht.length
  have h₄ := hsees'.tail.tail.skip.left.length
  have h₅ := hclause.length_tail
  have h₆ := hclause.tail.left.length
  have h₇ := hclause.tail.skip.length_tail
  have hread := ih n _ next hbody (by simp only [skip_depth, hd]) (by omega) hnext
  have hend : s.skip (word :: leftParen :: ts ++ us ++ semicolon :: vs ++ rightParen :: ws).length
      = (((((((s.skip 1).skip 1).skip ts.length).skip us.length).skip 1).skip vs.length).skip 1).skip
        ws.length := by
    simp only [skip_append, skip_cons]
  rw [hend]
  exact (statementStep_of_for (hsees'.current ▸ hword)).trans
    (forFrom_of_ok hleft he hf hsemicolon hg hright hsees'.tail hread)

theorem Followed.giveBack (hword : word.kind = .returnWord) (he : Optional ts e)
    (hsemicolon : semicolon.kind = .semicolon) (hinside : d ≠ 0) :
    Followed d (.statement false) (word :: ts ++ [semicolon]) (.giveBack word.mark e) := by
  intro n s next hsees hd hn hnext
  obtain ⟨n, rfl⟩ := exists_succ_of_levels hn
  have hsees' : s.Sees (word :: (ts ++ [semicolon])) next := hsees
  exact (statementStep_of_return (hsees'.current ▸ hword)).trans
    (returnStatement_of_derived he hsemicolon (by rwa [hd]) hsees')

theorem Followed.block {es : List Node} {leftBrace rightBrace : Token}
    (hopen : leftBrace.kind = .leftBrace) (ih : Followed d .declarations ts (.many es))
    (hclose : rightBrace.kind = .rightBrace) :
    Followed d (.statement false) (leftBrace :: ts ++ [rightBrace]) (.block es) := by
  intro n s next hsees hd hn hnext
  obtain ⟨n, rfl⟩ := exists_succ_of_levels hn
  have hsees' : s.Sees (leftBrace :: (ts ++ [rightBrace])) next := hsees
  have hlength := hsees'.length_tail
  have hread := blockBody_of_followed (n := n) ih hclose hsees'.tail (by rw [skip_depth, hd])
    (by omega)
  rw [List.cons_append, skip_cons]
  exact statementStep_of_block (hsees'.current ▸ hopen) hread

/-! ### Declarations, one rule at a time -/

theorem recovering_of_ok {p : Reader Node} {s' : Reading} (h : p s = .ok e s') :
    recovering p s = .ok (some e) s' := by
  rw [recovering, h]

section

variable {declaration : Reader (Option Node)} {statement : Reader Node}

theorem declarationStep_of_function (hcurrent : s.cursor.current.kind = .funWord) :
    declarationStep declaration statement s = function declaration (s.skip 1) := by
  rw [declarationStep, accept_bind, if_pos hcurrent, if_pos rfl]

theorem declarationStep_of_variable (hcurrent : s.cursor.current.kind = .varWord) :
    declarationStep declaration statement s = variableFrom (s.skip 1) := by
  rw [declarationStep, accept_bind, if_neg (by rw [hcurrent]; decide), if_neg Bool.false_ne_true,
    accept_bind, if_pos hcurrent, if_pos rfl]

theorem declarationStep_of_statement (hcurrent : s.cursor.current.kind ∈ statementStarts) :
    declarationStep declaration statement s = statement s := by
  have hkinds : ∀ kind ∈ statementStarts, kind ≠ .funWord ∧ kind ≠ .varWord := by decide
  obtain ⟨hnotFun, hnotVar⟩ := hkinds _ hcurrent
  rw [declarationStep, accept_bind, if_neg hnotFun, if_neg Bool.false_ne_true, accept_bind,
    if_neg hnotVar, if_neg Bool.false_ne_true]

end

theorem declarationUpTo_of_ok {n : Nat} {s' : Reading}
    (h : declarationStep (declarationUpTo n) (statementUpTo n) s = .ok e s') :
    declarationUpTo (n + 1) s = .ok (some e) s' :=
  recovering_of_ok h

theorem Followed.declare (hword : word.kind = .varWord) (he : Variable ts e) :
    Followed d .declaration (word :: ts) e := by
  intro n s next hsees hd hn hnext
  obtain ⟨n, rfl⟩ := exists_succ_of_levels (Nat.le_succ_of_le hn)
  have hread := variableFrom_of_derived he hsees.tail
  rw [skip_cons]
  exact declarationUpTo_of_ok ((declarationStep_of_variable (hsees.current ▸ hword)).trans hread)

theorem Followed.statement (h : Statement d (.statement ajar) ts e)
    (ih : Followed d (.statement ajar) ts e) : Followed d .declaration ts e := by
  intro n s next hsees hd hn hnext
  obtain ⟨n, rfl⟩ := exists_succ_of_levels (Nat.le_succ_of_le hn)
  obtain ⟨t, rest, rfl, -, ht⟩ := h.first (by simp)
  have hcurrent : s.cursor.current.kind ∈ statementStarts := by
    rw [hsees.current]
    exact ht _ rfl
  have hread := ih n s next hsees hd (by omega) fun _ => hnext
  exact declarationUpTo_of_ok ((declarationStep_of_statement hcurrent).trans hread)

theorem Followed.function {name leftBrace rightBrace : Token} {params : List Mark} {es : List Node}
    (hword : word.kind = .funWord) (hname : name.kind = .identifier)
    (hleft : leftParen.kind = .leftParen) (hparams : OptionalParameters ts params)
    (hcount : params.length ≤ maxArguments) (hright : rightParen.kind = .rightParen)
    (hopen : leftBrace.kind = .leftBrace) (ih : Followed (d + 1) .declarations us (.many es))
    (hclose : rightBrace.kind = .rightBrace) :
    Followed d .declaration
      (word :: name :: leftParen :: ts ++ rightParen :: leftBrace :: us ++ [rightBrace])
      (.function name.mark params es) := by
  intro n s next hsees hd hn hnext
  obtain ⟨n, rfl⟩ := exists_succ_of_levels (Nat.le_succ_of_le hn)
  have hsees' : s.Sees (word :: name :: leftParen ::
      (ts ++ rightParen :: leftBrace :: (us ++ [rightBrace]))) next := by simpa using hsees
  have hparen := hsees'.tail.tail.tail.skip
  have hbody := hparen.tail.tail
  have h₁ := hsees'.length_tail
  have h₂ := hsees'.tail.length_tail
  have h₃ := hsees'.tail.tail.length_tail
  have h₄ := hsees'.tail.tail.tail.left.length
  have h₅ := hparen.length_tail
  have h₆ := hparen.tail.length_tail
  have hread := inFunction_of_followed (n := n) ih hclose hbody (by simp only [skip_depth, hd])
    (by omega)
  have hfunction := function_of_ok hname hleft hparams hcount hright hopen hsees'.tail hread
  have hend : s.skip
      (word :: name :: leftParen :: ts ++ rightParen :: leftBrace :: us ++ [rightBrace]).length
      = (s.skip 1).skip
        (name :: leftParen :: (ts ++ rightParen :: leftBrace :: (us ++ [rightBrace]))).length := by
    simp only [skip_append, skip_cons]
  rw [hend]
  exact declarationUpTo_of_ok ((declarationStep_of_function (hsees'.current ▸ hword)).trans hfunction)

/-! ### Whole programs -/

theorem followed {form : Form} (h : Statement d form ts e) : Followed d form ts e := by
  induction h with
  | noDeclaration => exact .noDeclaration
  | moreDeclarations hfirst hrest ihf ihr => exact .moreDeclarations hfirst hrest ihf ihr
  | function hword hname hleft hparams hcount hright hopen _ hclose ih =>
    exact .function hword hname hleft hparams hcount hright hopen ih hclose
  | declare hword he => exact .declare hword he
  | statement h ih => exact .statement h ih
  | expression he hsemicolon => exact .expression he hsemicolon
  | print hword he hsemicolon => exact .print hword he hsemicolon
  | ifThen hword hleft he hright _ ih => exact .ifThen hword hleft he hright ih
  | ifElse hword hleft he hright _ helse _ ihf ihg =>
    exact .ifElse hword hleft he hright ihf helse ihg
  | whileLoop hword hleft he hright _ ih => exact .whileLoop hword hleft he hright ih
  | forLoop hword hleft he hf hsemicolon hg hright _ ih =>
    exact .forLoop hword hleft he hf hsemicolon hg hright ih
  | giveBack hword he hsemicolon hinside => exact .giveBack hword he hsemicolon hinside
  | block hopen _ hclose ih => exact .block hopen ih hclose

theorem program_of_derived {es : List Node} (h : Statement 0 .declarations ts (.many es))
    (hsees : s.Sees ts next) (hd : s.depth = 0) (hnext : next.kind = .endOfFile) :
    program s = .ok es (s.skip ts.length) := by
  have hstop : StopsAt atEnd next := by
    refine ⟨?_, ?_, by rw [hnext]; decide⟩
    · intro s hs
      rw [atEnd, Cursor.isAtEnd, hs, hnext]
      rfl
    · intro s hs
      have hkinds : ∀ kind ∈ declarationStarts, (kind == .endOfFile) = false := by decide
      rw [atEnd, Cursor.isAtEnd, hkinds _ hs]
  rw [program, bounded_apply]
  exact followed h es rfl declaration _ atEnd s next hsees hd (enough_declaration _) (by omega) hstop

end LoxLang.Reader
