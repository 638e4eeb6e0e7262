/-
What readers of statements pass on the way.

Where the parts of a statement lead somewhere, so does the statement: there is one lemma for each
reader of statements, which says what is left to be done after its parts.  The last part is left
open, as it need not be read to its end: a statement whose body is given up is given up too.

* `ending` is what is left of a statement when only its semicolon is still to be read;
* `Leads.ifFrom`, `Leads.whileFrom`, `Leads.function`, ... — statements, after their first word;
* `Leads.statement_print`, `Leads.declaration_function`, ... — with this word;
* `declarations_stops`, `declarations_goesOn` — lists of declarations, one by one;
* `Lost.resume` — what is passed after a fault;
* `Program.ofTokens_of_leads` — whole programs.
-/
import LoxLang.Proofs.Reader.ExactGrammar
import LoxLang.Proofs.Reader.LenientExpressions

namespace LoxLang

namespace Reader

open Grammar Reading

variable {d k : Nat} {t name equal leftParen rightParen leftBrace rightBrace word semicolon : Token}
  {ts us vs ws : List Token} {e f g : Node} {es : List Node} {params : List Mark}
  {errors errors' errors'' errors''' : List SyntaxError} {follow follow' : Kind → Prop}
  {kind : Kind} {fault : SyntaxFault} {p q : Reader Node}

/-! ### Semicolons -/

/-- What is left of a statement with this tree in front of its semicolon. -/
def ending (fault : SyntaxFault) (e : Node) : Reader Node := do
  let _ ← expect .semicolon fault
  return e

theorem ending_done (hsemicolon : semicolon.kind = .semicolon) :
    Leads d k [semicolon] [] follow (ending fault e) (pure e) :=
  .expect hsemicolon (.refl _)

theorem ending_fails : Leads d k [] [] (· ≠ .semicolon) (ending fault e) (fail fault) :=
  .expect_fails _

/-- A statement up to its semicolon, and the semicolon. -/
theorem Leads.ended (h : Leads d k ts errors follow p (ending fault e))
    (hsemicolon : semicolon.kind = .semicolon) (hfollow : follow .semicolon) :
    Leads d k (ts ++ [semicolon]) errors follow' p (pure e) := by
  rw [← hsemicolon] at hfollow
  exact (h.trans (ending_done hsemicolon) fun _ _ => hfollow).cast rfl (List.append_nil _)

/-- An expression is read, if nothing goes on with it. -/
def ReadsExpression (d k : Nat) (ts : List Token) (e : Node) (errors : List SyntaxError) : Prop :=
  Leads d k ts errors (· ∉ Kind.equal :: continuing levels) expression (pure e)

theorem readsExpression_of_derived (h : Expression .expression ts e) :
    ReadsExpression d k ts e [] := by
  intro s next hsees _ _ hfollow
  rw [expression_of_derived h hsees hfollow, past_nil]
  rfl

namespace Leads

theorem expressionStatement (h : ReadsExpression d k ts e errors) :
    Leads d k ts errors (· ∉ Kind.equal :: continuing levels) Reader.expressionStatement
      (ending .semicolonAfterExpression (.evaluate e)) :=
  h.map _

theorem printFrom (h : ReadsExpression d k ts e errors) :
    Leads d k ts errors (· ∉ Kind.equal :: continuing levels) Reader.printFrom
      (ending .semicolonAfterPrinted (.print e)) :=
  h.map _

theorem orMissing_absent : Leads d k [] [] (· ≠ kind) (orMissing kind p) (pure .missing) :=
  .accept_no (fun _ hkind => hkind) (.refl _)

theorem orMissing_present (ht : t.kind = kind) (h : Leads d (k + 1) ts errors follow p q) :
    Leads d k (t :: ts) errors follow (orMissing kind p) q :=
  .accept_yes ht h

theorem variableFrom_bare (hname : name.kind = .identifier) :
    Leads d k [name] [] (· ≠ .equal) Reader.variableFrom
      (ending .semicolonAfterVariable (.declare name.mark .missing)) := by
  rw [variableFrom_eq]
  exact .expect hname (orMissing_absent.map _)

theorem variableFrom_initialized (hname : name.kind = .identifier) (hequal : equal.kind = .equal)
    (h : ReadsExpression d (k + 2) ts e errors) :
    Leads d k (name :: equal :: ts) errors (· ∉ Kind.equal :: continuing levels)
      Reader.variableFrom (ending .semicolonAfterVariable (.declare name.mark e)) := by
  rw [variableFrom_eq]
  exact .expect hname ((orMissing_present hequal h).map _)

theorem optionalBefore_absent :
    Leads d k [] [] (· = kind) (Reader.optionalBefore kind) (pure .missing) :=
  .check true (by rintro _ rfl; simp [firstKind]) (.refl _)

theorem optionalBefore_present (ht : t.kind ≠ kind)
    (h : ReadsExpression d k (t :: ts) e errors) :
    Leads d k (t :: ts) errors (· ∉ Kind.equal :: continuing levels) (Reader.optionalBefore kind)
      (pure e) :=
  .check false (by simpa [firstKind] using fun _ _ _ => ht) h

/-- A `return` is read on after the error that it may be. -/
theorem returnStatement (h : Leads d (k + 1) ts errors follow (returnFrom word) q) :
    Leads d k (word :: ts) (Lenient.returnError d word k ++ errors) follow Reader.returnStatement
      q := by
  intro s next hsees hd hk hfollow
  have hindex : (s.skip 1).cursor.index = k + 1 := by
    have hword : s.Sees ([word] ++ ts) next := hsees
    rw [← hk]
    exact hword.before.index
  rw [returnStatement_apply, hsees.current, hk, hd, Lenient.returnError]
  split
  · have hreported := h (recorded (s.skip 1) ⟨word, k, .topLevelReturn⟩) next hsees.tail
      ((skip_depth s 1).trans hd) hindex hfollow
    rw [hreported, recorded_eq_past, ← past_nil, past_past, past_past, List.length_cons]
    simp only [List.nil_append, Nat.add_zero, Nat.add_comm]
  · rw [h (s.skip 1) next hsees.tail ((skip_depth s 1).trans hd) hindex hfollow, ← past_nil,
      past_past, List.length_cons, Nat.add_comm 1]

/-! ### Statements after their first word -/

variable {before after : SyntaxFault}

theorem parenthesized (hleft : leftParen.kind = .leftParen)
    (h : ReadsExpression d (k + 1) ts e errors) (hright : rightParen.kind = .rightParen) :
    Leads d k (leftParen :: ts ++ [rightParen]) errors follow (Reader.parenthesized before after)
      (pure e) :=
  .expect hleft (Leads.upToLast h hright (by decide))

/-- What comes after a condition in parentheses. -/
theorem afterCondition {α : Type} {p : Node → Reader α} {q : Reader α}
    (hleft : leftParen.kind = .leftParen) (h : ReadsExpression d (k + 1) ts e errors)
    (hright : rightParen.kind = .rightParen)
    (hbody : Leads d (k + 1 + ts.length + 1) us errors' follow (p e) q) :
    Leads d k (leftParen :: ts ++ rightParen :: us) (errors ++ errors') follow
      (Reader.parenthesized before after >>= p) q := by
  have hindex : k + (leftParen :: ts ++ [rightParen]).length = k + 1 + ts.length + 1 := by
    simp only [List.length_append, List.length_cons, List.length_nil]
    omega
  have hcondition : Leads d k (leftParen :: ts ++ [rightParen]) errors (fun _ => True)
      (Reader.parenthesized before after) (pure e) := parenthesized hleft h hright
  rw [← hindex] at hbody
  exact (hcondition.seq hbody fun _ _ => trivial).cast (by simp) rfl

theorem ifFrom (hleft : leftParen.kind = .leftParen)
    (hcondition : ReadsExpression d (k + 1) ts e errors) (hright : rightParen.kind = .rightParen)
    (hthen : Leads d (k + 1 + ts.length + 1) us errors' follow statement q) :
    Leads d k (leftParen :: ts ++ rightParen :: us) (errors ++ errors') follow
      (Reader.ifFrom statement) (q >>= fun f =>
        orMissing .elseWord statement >>= fun g => pure (.branch e f g)) := by
  rw [ifFrom_eq]
  exact afterCondition hleft hcondition hright (hthen.bind _)

theorem whileFrom (hleft : leftParen.kind = .leftParen)
    (hcondition : ReadsExpression d (k + 1) ts e errors) (hright : rightParen.kind = .rightParen)
    (hbody : Leads d (k + 1 + ts.length + 1) us errors' follow statement q) :
    Leads d k (leftParen :: ts ++ rightParen :: us) (errors ++ errors') follow
      (Reader.whileFrom statement) (q >>= fun f => pure (.loop e f)) := by
  rw [whileFrom_eq]
  exact afterCondition hleft hcondition hright (hbody.bind _)

theorem forFrom (hleft : leftParen.kind = .leftParen)
    (hinitializer : Leads d (k + 1) ts errors (fun _ => True) forInitializer (pure e))
    (hcondition : Leads d (k + 1 + ts.length) us errors' (· = .semicolon)
      (optionalBefore .semicolon) (pure f)) (hsemicolon : semicolon.kind = .semicolon)
    (hincrement : Leads d (k + 1 + ts.length + us.length + 1) vs errors'' (· = .rightParen)
      (optionalBefore .rightParen) (pure g)) (hright : rightParen.kind = .rightParen)
    (hbody : Leads d (k + 1 + ts.length + us.length + 1 + vs.length + 1) ws errors''' follow
      statement q) :
    Leads d k (leftParen :: ts ++ us ++ semicolon :: vs ++ rightParen :: ws)
      (errors ++ errors' ++ errors'' ++ errors''') follow (Reader.forFrom statement)
      (q >>= fun body => pure (forLoop e f g body)) := by
  have hclauses : Leads d (k + 1) (ts ++ (us ++ semicolon :: (vs ++ rightParen :: ws)))
      (errors ++ (errors' ++ (errors'' ++ errors'''))) follow (do
        let initializer ← forInitializer
        let condition ← Reader.optionalBefore .semicolon
        let _ ← Reader.expect .semicolon .semicolonAfterLoopCondition
        let increment ← Reader.optionalBefore .rightParen
        let _ ← Reader.expect .rightParen .parenAfterForClauses
        let body ← statement
        return forLoop initializer condition increment body)
      (q >>= fun body => pure (forLoop e f g body)) :=
    hinitializer.seq (hcondition.upTo hsemicolon rfl (hincrement.upTo hright rfl (hbody.bind _)))
      fun _ _ => trivial
  exact (Leads.expect hleft hclauses).cast (by simp) (by simp)

theorem blockBody (h : Leads d k ts errors follow (declarations atBlockEnd) (pure es))
    (hfollow : follow .rightBrace) (hclose : rightBrace.kind = .rightBrace) :
    Leads d k (ts ++ [rightBrace]) errors follow' (Reader.blockBody declaration) (pure es) := by
  rw [blockBody_eq]
  exact h.upToLast hclose hfollow

theorem function (hname : name.kind = .identifier) (hleft : leftParen.kind = .leftParen)
    (hparameters : Leads d (k + 2) ts errors (· = .rightParen)
      (Reader.listing parameter .tooManyParameters) (pure params)) (hright : rightParen.kind = .rightParen)
    (hopen : leftBrace.kind = .leftBrace)
    (hbody : Leads (d + 1) (k + 2 + ts.length + 2) us errors' follow (Reader.blockBody declaration)
      (pure es)) :
    Leads d k (name :: leftParen :: ts ++ rightParen :: leftBrace :: us) (errors ++ errors') follow
      (Reader.function declaration) (pure (.function name.mark params es)) := by
  have hinside := hbody.inFunction
  rw [inFunction_pure] at hinside
  exact .expect hname (.expect hleft (hparameters.upTo hright rfl (.expect hopen (hinside.map _))))

/-! ### Statements with their first word -/

theorem statement_print (hword : word.kind = .printWord)
    (h : Leads d (k + 1) ts errors follow Reader.printFrom q) :
    Leads d k (word :: ts) errors follow statement q :=
  .after_first (fun _ hs ht => (statement_eq hs).trans (statementStep_of_print (ht ▸ hword))) h

theorem statement_if (hword : word.kind = .ifWord)
    (h : Leads d (k + 1) ts errors follow (Reader.ifFrom statement) q) :
    Leads d k (word :: ts) errors follow statement q :=
  .after_first (fun _ hs ht => (statement_eq hs).trans (statementStep_of_if (ht ▸ hword))) h

theorem statement_while (hword : word.kind = .whileWord)
    (h : Leads d (k + 1) ts errors follow (Reader.whileFrom statement) q) :
    Leads d k (word :: ts) errors follow statement q :=
  .after_first (fun _ hs ht => (statement_eq hs).trans (statementStep_of_while (ht ▸ hword))) h

theorem statement_for (hword : word.kind = .forWord)
    (h : Leads d (k + 1) ts errors follow (Reader.forFrom statement) q) :
    Leads d k (word :: ts) errors follow statement q :=
  .after_first (fun _ hs ht => (statement_eq hs).trans (statementStep_of_for (ht ▸ hword))) h

theorem statement_return (hword : word.kind = .returnWord)
    (h : Leads d k (word :: ts) errors follow Reader.returnStatement q) :
    Leads d k (word :: ts) errors follow statement q :=
  .of_first (fun _ hs ht => (statement_eq hs).trans (statementStep_of_return (ht ▸ hword))) h

theorem statement_expression (ht : t.kind ∈ starts)
    (h : Leads d k (t :: ts) errors follow Reader.expressionStatement q) :
    Leads d k (t :: ts) errors follow statement q :=
  .of_first (fun _ hs ht' => (statement_eq hs).trans (statementStep_of_expression (ht' ▸ ht))) h

theorem statementStep_block {s : Reading} (h : s.cursor.current.kind = .leftBrace) :
    statementStep declaration statement s = (do
      let _ ← Reader.advance
      let statements ← Reader.blockBody declaration
      return Node.block statements) s := by
  rw [statementStep, peek_bind, h]

theorem statement_block (hopen : leftBrace.kind = .leftBrace)
    (h : Leads d (k + 1) ts errors follow (Reader.blockBody declaration) (pure es)) :
    Leads d k (leftBrace :: ts) errors follow statement (pure (.block es)) :=
  .of_first (fun _ hs ht => (statement_eq hs).trans (statementStep_block (ht ▸ hopen)))
    (.advance (h.map _))

/-! ### Declarations -/

theorem declaration_function (hword : word.kind = .funWord)
    (h : Leads d (k + 1) ts errors follow (Reader.function declaration) q) :
    Leads d k (word :: ts) errors follow declaration (Reader.recovering q) := by
  have hstep : Leads d k (word :: ts) errors follow (declarationStep declaration statement) q :=
    .after_first (fun _ _ ht => declarationStep_of_function (ht ▸ hword)) h
  exact .of_eq (fun _ hs => declaration_eq hs) hstep.recovering

theorem declaration_variable (hword : word.kind = .varWord)
    (h : Leads d (k + 1) ts errors follow Reader.variableFrom q) :
    Leads d k (word :: ts) errors follow declaration (Reader.recovering q) := by
  have hstep : Leads d k (word :: ts) errors follow (declarationStep declaration statement) q :=
    .after_first (fun _ _ ht => declarationStep_of_variable (ht ▸ hword)) h
  exact .of_eq (fun _ hs => declaration_eq hs) hstep.recovering

theorem declaration_statement (ht : t.kind ∈ statementStarts)
    (h : Leads d k (t :: ts) errors follow statement q) :
    Leads d k (t :: ts) errors follow declaration (Reader.recovering q) := by
  have hstep : Leads d k (t :: ts) errors follow (declarationStep declaration statement) q :=
    .of_first (fun _ _ ht' => declarationStep_of_statement (ht' ▸ ht)) h
  exact .of_eq (fun _ hs => declaration_eq hs) hstep.recovering

end Leads

/-! ### Lists of declarations -/

section

variable {stop : Reader Bool} {stops : Kind → Bool} {found : Option Node}

/-- Where declarations stop depends on the kind of the current token. -/
theorem Leads.stopping {α : Type} {f : Bool → Reader α} {r : Reader α}
    (hstop : EndsBefore stop fun t => stops t.kind) (b : Bool)
    (hb : ∀ kind, follow kind → stops (firstKind ts kind) = b)
    (h : Leads d k ts errors follow (f b) r) : Leads d k ts errors follow (stop >>= f) r := by
  intro s next hsees hd hk hfollow
  have hcurrent : s.cursor.current = ts.headD next := by
    have hsees' : s.Sees ([] ++ ts) next := hsees
    exact hsees'.before.current_of_nil
  rw [bind_of_ok (hstop.asks s), hcurrent, firstKind_eq, hb _ hfollow]
  exact h s next hsees hd hk hfollow

theorem declarations_stops (hstop : EndsBefore stop fun t => stops t.kind) :
    Leads d k [] [] (stops · = true) (declarations stop) (pure []) :=
  .of_eq (fun _ hs => declarations_eq hstop hs) (.stopping hstop true (fun _ hkind => hkind)
    (.refl _))

/-- One declaration, which may have been dropped, and the others. -/
theorem declarations_goesOn (hstop : EndsBefore stop fun t => stops t.kind)
    (ht : stops t.kind = false)
    (hfirst : Leads d k (t :: ts) errors follow declaration (pure found))
    (hrest : Leads d (k + (t :: ts).length) us errors' follow' (declarations stop) (pure es))
    (hnext : ∀ kind, follow' kind → follow (firstKind us kind)) :
    Leads d k (t :: ts ++ us) (errors ++ errors') follow' (declarations stop)
      (pure (found.toList ++ es)) :=
  .of_eq (fun _ hs => declarations_eq hstop hs) (.stopping hstop false (fun _ _ => ht)
    (hfirst.seq (hrest.map _) hnext))

end

/-! ### Statements without faults -/

section

variable {ajar : Bool} {stop : Reader Bool} {stops : Kind → Bool}

/-- A reader that is known to find something and to do nothing else. -/
theorem Leads.of_ok {α : Type} {p : Reader α} {a : α} (h : ∀ s next, s.Sees ts next → s.depth = d →
    follow next.kind → p s = .ok a (s.skip ts.length)) : Leads d k ts [] follow p (pure a) := by
  intro s next hsees hd _ hfollow
  rw [h s next hsees hd hfollow, past_nil]
  rfl

theorem Leads.of_optional (h : Optional ts e)
    (hkind : kind ∉ Kind.equal :: continuing levels ++ starts) :
    Leads d k ts [] (· = kind) (optionalBefore kind) (pure e) :=
  .of_ok fun _ _ hsees _ hnext => optionalBefore_of_derived h hsees hnext hkind

theorem Leads.of_initializer (h : Initializer ts e) :
    Leads d k ts [] (fun _ => True) forInitializer (pure e) :=
  .of_ok fun _ _ hsees _ _ => forInitializer_of_derived h hsees

theorem Leads.of_parameters (h : OptionalParameters ts params)
    (hcount : params.length ≤ maxArguments) :
    Leads d k ts [] (· = .rightParen) (Reader.listing parameter .tooManyParameters) (pure params) :=
  .of_ok fun _ _ hsees _ hnext => listing_of_parameters h hcount hsees hnext

theorem Leads.of_statement (h : Statement d (.statement ajar) ts e) :
    Leads d k ts [] (fun kind => ajar = true → kind ≠ .elseWord) statement (pure e) :=
  .of_ok fun s next hsees hd hnext => by
    rw [statement_apply]
    exact followed h _ s next hsees hd (by omega) hnext

theorem Leads.of_declaration (h : Statement d .declaration ts e) :
    Leads d k ts [] (· ≠ .elseWord) declaration (pure (some e)) :=
  .of_ok fun s next hsees hd hnext => by
    rw [declaration_apply]
    exact followed h _ s next hsees hd le_rfl hnext

theorem Leads.of_declarations (h : Statement d .declarations ts (.many es))
    (hstop : EndsBefore stop fun t => stops t.kind)
    (hstarts : ∀ kind ∈ declarationStarts, stops kind = false) :
    Leads d k ts [] (fun kind => stops kind = true ∧ kind ≠ .elseWord) (declarations stop)
      (pure es) :=
  .of_ok fun s next hsees hd hnext => by
    have hstopsAt : StopsAt stop next := by
      refine ⟨fun s hs => ?_, fun s hs => ?_, hnext.2⟩
      · rw [hstop.asks, hs, hnext.1]
      · rw [hstop.asks, hstarts _ hs]
    rw [declarations, bounded_apply]
    exact followed h es rfl declaration _ stop s next hsees hd (enough_declaration _) (by omega)
      hstopsAt

end

/-! ### After a fault -/

/-- Tokens that are passed after a fault of the first one, up to one of the given kind: none but
the last is a semicolon, none but the first is a word that begins a statement, and a statement may
begin after them. -/
structure Lost (ts : List Token) (next : Kind) : Prop where
  inside : ∀ t ∈ ts.dropLast, t.kind ≠ .semicolon
  words : ∀ t ∈ ts.tail, t.kind ∉ statementWords
  ends : (∃ t ∈ ts.getLast?, t.kind = .semicolon) ∨
    next ∈ Kind.endOfFile :: statementWords ∧ (ts = [] → next = .endOfFile)

section

variable {s : Reading} {next : Token} {n : Nat}

theorem not_atEnd_of_sees (hsees : s.Sees (t :: ts) next) : s.cursor.isAtEnd = false := by
  rw [Cursor.isAtEnd, beq_eq_false_iff_ne, hsees.current]
  exact hsees.ne_endOfFile

theorem not_atBoundary (hsees : s.Sees (t :: ts) next) (ht : t.kind ∉ statementWords)
    (hprevious : s.cursor.previous.any (·.kind == .semicolon) = false) :
    s.atBoundary = false := by
  simp [atBoundary, hprevious, not_atEnd_of_sees hsees, Cursor.check, hsees.current, ht]

/-- After tokens that are lost a statement may begin. -/
theorem Lost.atBoundary (h : Lost ts next.kind) (hsees : s.Sees ts next) :
    (s.skip ts.length).atBoundary = true := by
  have hcurrent := hsees.skip_all.current_of_nil
  rcases h.ends with ⟨t, ht, hsemicolon⟩ | ⟨hnext, -⟩
  · obtain ⟨us, rfl⟩ := List.getLast?_eq_some_iff.mp ht
    have hlast : (s.skip us.length).Sees [t] next := hsees.skip
    have hlength : (us ++ [t]).length = us.length + 1 := by simp
    rw [hlength] at hcurrent ⊢
    rw [Reading.atBoundary]
    cases hend : (s.skip (us.length + 1)).cursor.isAtEnd with
    | true => rfl
    | false => simp [previous_skip s us.length hend, hlast.current, hsemicolon]
  · rcases List.mem_cons.mp hnext with hend | hword
    · simp [Reading.atBoundary, Cursor.isAtEnd, hcurrent, hend]
    · simp [Reading.atBoundary, Cursor.check, hcurrent, hword]

theorem dropLast_subset_cons (t : Token) (ts : List Token) : ts.dropLast ⊆ (t :: ts).dropLast := by
  cases ts with
  | nil => simp
  | cons u us => exact List.subset_cons_self _ _

/-- The token before is no semicolon, unless all tokens have been passed. -/
theorem previous_after (hsees : s.Sees (t :: ts) next)
    (hinside : ∀ u ∈ (t :: ts).dropLast, u.kind ≠ .semicolon) (hts : ts ≠ []) :
    (s.skip 1).cursor.previous.any (·.kind == .semicolon) = false := by
  obtain ⟨u, us, rfl⟩ := List.exists_cons_of_ne_nil hts
  rw [previous_skip s 0 (not_atEnd_of_sees hsees.tail), skip_zero, hsees.current]
  simpa using hinside t List.mem_cons_self

theorem skipToBoundary_passes (hn : s.rest.length ≤ n) (hsees : s.Sees ts next)
    (hinside : ∀ t ∈ ts.dropLast, t.kind ≠ .semicolon)
    (hwords : ∀ t ∈ ts, t.kind ∉ statementWords)
    (hprevious : ts ≠ [] → s.cursor.previous.any (·.kind == .semicolon) = false)
    (hend : (s.skip ts.length).atBoundary = true) :
    skipToBoundary n s = .ok () (s.skip ts.length) := by
  obtain ⟨n, rfl⟩ := exists_succ_of_le hn
  induction ts generalizing s n with
  | nil => exact if_pos hend
  | cons t ts ih =>
    have hlength := hsees.length_tail
    obtain ⟨m, rfl⟩ := exists_succ_of_le (s := s.skip 1) (n := n) (by omega)
    have hnot := not_atBoundary hsees (hwords t List.mem_cons_self)
      (hprevious (List.cons_ne_nil t ts))
    have hstep : skipToBoundary (m + 1 + 1) s = skipToBoundary (m + 1) (s.skip 1) :=
      if_neg (Bool.eq_false_iff.mp hnot)
    rw [skip_cons] at hend ⊢
    rw [hstep]
    exact ih hsees.tail (fun u hu => hinside u (dropLast_subset_cons t ts hu))
      (fun u hu => hwords u (List.mem_cons_of_mem t hu)) (previous_after hsees hinside) hend m
      (by omega)

/-- What is lost after a fault is passed. -/
theorem Lost.resume (h : Lost ts next.kind) (hsees : s.Sees ts next) :
    resume s = .ok () (s.skip ts.length) := by
  have hend := h.atBoundary hsees
  rw [Reader.resume, advance_bind, bounded_apply]
  cases ts with
  | nil =>
    have hcurrent : s.cursor.current.kind = .endOfFile := by
      rw [hsees.current_of_nil]
      exact (h.ends.resolve_left (by simp)).2 rfl
    rw [skip_one_of_end hcurrent]
    exact skipToBoundary_passes (by omega) hsees (by simp) (by simp) (by simp) hend
  | cons t ts =>
    rw [skip_cons] at hend ⊢
    exact skipToBoundary_passes (by omega) hsees.tail
      (fun u hu => h.inside u (dropLast_subset_cons t ts hu)) h.words
      (previous_after hsees h.inside) hend

end

end Reader

open Reader

section

variable {ts : List Token} {t : Token}

/-- A program is read from a state in which all its tokens lie ahead. -/
theorem Program.exists_start (htokens : EndsOnce (ts ++ [t])) :
    ∃ s : Reading, s.Sees ts t ∧ s.depth = 0 ∧ s.cursor.index = 0 ∧ ∀ es errors,
      program s = (pure es : Reader _) (s.past ts.length errors) →
        Program.ofTokens (ts ++ [t]) = ⟨es, errors, errors⟩ := by
  obtain ⟨c, hc, hrest⟩ := Cursor.of_endsOnce htokens
  have hindex : c.index = 0 := by
    rw [Cursor.ofTokens?.eq_def] at hc
    split at hc
    · cases hc
    · cases hc
      rfl
  refine ⟨.start c, ⟨by rwa [hrest], [], hrest⟩, rfl, hindex, fun es errors hread => ?_⟩
  rw [Program.ofTokens, hc]
  simp only [hread]
  rfl

/-- A program of which it is known where its declarations lead. -/
theorem Program.ofTokens_of_leads {es : List Node} {errors : List SyntaxError}
    (htokens : EndsOnce (ts ++ [t])) (ht : t.kind = .endOfFile)
    (h : Leads 0 0 ts errors (· = .endOfFile) program (pure es)) :
    Program.ofTokens (ts ++ [t]) = ⟨es, errors, errors⟩ := by
  obtain ⟨s, hsees, hd, hindex, hread⟩ := Program.exists_start htokens
  exact hread es errors (h s t hsees hd hindex ht)

end

end LoxLang
