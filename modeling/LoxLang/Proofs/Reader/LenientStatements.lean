/-
Faults that are passed lose nothing.

The readers of statements pass the tokens of a derivation in the lenient grammar, record its
errors and find its tree.  `Reader.Kept` says for each sort of statement where its reader leads,
and there is one lemma for each rule of the grammar, so that `kept` is an induction on the
derivation.

* `in_place_faults_lose_nothing` — a program with faults of these three sorts is read to its end:
  no token is skipped, no statement dropped, and there are no errors but those of the derivation.
-/
import LoxLang.Proofs.Reader.StatementLeading

namespace LoxLang

/-! ### First tokens -/

namespace Grammar.Lenient

/-- A lenient declaration begins with a token of the same kinds as one without faults. -/
theorem Statement.first {d k : Nat} {form : Form} {ts : List Token} {e : Node}
    {errors : List SyntaxError} (h : Statement d k form ts e errors)
    (hform : form ≠ .declarations) :
    ∃ t rest, ts = t :: rest ∧ t.kind ∈ declarationStarts ∧
      ∀ ajar, form = .statement ajar → t.kind ∈ statementStarts := by
  have hsub : statementStarts ⊆ declarationStarts := by decide
  have start {t : Token} {rest : List Token} {kind : Kind} {form : Form} (ht : t.kind = kind)
      (hkind : kind ∈ statementStarts) :
      ∃ t' rest', t :: rest = t' :: rest' ∧ t'.kind ∈ declarationStarts ∧
        ∀ ajar, form = .statement ajar → t'.kind ∈ statementStarts := by
    rw [← ht] at hkind
    exact ⟨t, rest, rfl, hsub hkind, fun _ _ => hkind⟩
  induction h with
  | noDeclaration | moreDeclarations => exact absurd rfl hform
  | function hword => exact ⟨_, _, rfl, by simp [hword, declarationStarts], by simp⟩
  | declare hword => exact ⟨_, _, rfl, by simp [hword, declarationStarts], by simp⟩
  | statement _ ih =>
    obtain ⟨t, rest, rfl, -, ht⟩ := ih (by simp)
    exact ⟨t, rest, rfl, hsub (ht _ rfl), by simp⟩
  | expression h =>
    obtain ⟨t, rest, rfl, ht, -⟩ := h.first
    exact start rfl (List.mem_append_right _ ht)
  | print hword => exact start hword (by decide)
  | ifThen hword => exact start hword (by decide)
  | ifElse hword => exact start hword (by decide)
  | whileLoop hword => exact start hword (by decide)
  | forLoop hword => exact start hword (by decide)
  | giveBack hword => exact start hword (by decide)
  | block hword => exact start hword (by decide)

/-- A call, or less, without operators around it. -/
theorem Expression.ofCall {k : Nat} {ts : List Token} {e : Node} {errors : List SyntaxError}
    (h : Expression k .call ts e errors) : Expression k (.chain levels) ts e errors :=
  .tighter (.tighter (.tighter (.tighter (.tighter (.tighter (.operand (.called h)))))))

/-- What comes after a declaration is another one, or the end of the declarations. -/
theorem Statement.firstKind_ne_else {d k : Nat} {us : List Token} {es : List Node}
    {errors : List SyntaxError} {kind : Kind} (h : Statement d k .declarations us (.many es) errors)
    (hkind : kind ≠ .elseWord) : Reader.firstKind us kind ≠ .elseWord := by
  cases h with
  | noDeclaration => exact hkind
  | moreDeclarations first _ =>
    obtain ⟨t, rest, rfl, ht, -⟩ := first.first (by simp)
    have hstarts : ∀ kind ∈ declarationStarts, kind ≠ .elseWord := by decide
    exact hstarts _ ht

end Grammar.Lenient

namespace Reader

open Grammar

variable {d k : Nat} {t name equal leftParen rightParen leftBrace rightBrace word semicolon : Token}
  {ts us vs ws : List Token} {e f g : Node} {es : List Node} {params : List Mark}
  {errors errors' errors'' errors''' : List SyntaxError} {ajar : Bool}

/-! ### Parts of statements -/

theorem optionalBefore_leads {kind : Kind} (h : Lenient.Optional k ts e errors)
    (hkind : kind ∉ Kind.equal :: continuing levels ++ starts) :
    Leads d k ts errors (· = kind) (optionalBefore kind) (pure e) := by
  rw [List.mem_append, not_or] at hkind
  cases h with
  | absent => exact .optionalBefore_absent
  | present h =>
    obtain ⟨t, rest, rfl, ht, -⟩ := h.first
    refine (Leads.optionalBefore_present ?_ (expression_leads h)).mono ?_
    · rintro rfl
      exact hkind.2 ht
    · rintro _ rfl
      exact hkind.1

theorem variableFrom_leads {follow : Kind → Prop} (h : Lenient.Variable k ts e errors) :
    Leads d k ts errors follow variableFrom (pure e) := by
  cases h with
  | bare hname hsemicolon =>
    exact (Leads.variableFrom_bare hname).ended hsemicolon (by decide)
  | initialized hname hequal h hsemicolon =>
    exact (Leads.variableFrom_initialized hname hequal (expression_leads h)).ended hsemicolon
      (by decide)

theorem forInitializer_leads (h : Lenient.Initializer k ts e errors) :
    Leads d k ts errors (fun _ => True) forInitializer (pure e) := by
  cases h with
  | absent hsemicolon => exact .accept_yes hsemicolon (.refl _)
  | declare hword h =>
    refine .accept_no (fun _ _ => ?_) (.accept_yes hword (variableFrom_leads h))
    rw [firstKind, List.head?_cons, Option.map_some, Option.getD_some, hword]
    decide
  | expression h hsemicolon =>
    obtain ⟨t, rest, rfl, ht, -⟩ := h.first
    have hkinds : ∀ kind ∈ starts, kind ≠ .semicolon ∧ kind ≠ .varWord := by decide
    obtain ⟨hnotSemicolon, hnotVar⟩ := hkinds _ ht
    exact .accept_no (fun _ _ => hnotSemicolon) (.accept_no (fun _ _ => hnotVar)
      ((Leads.expressionStatement (expression_leads h)).ended hsemicolon (by decide)))

theorem parameter_leads (hname : name.kind = .identifier) :
    Leads d k [name] [] (fun _ => True) parameter (pure name.mark) :=
  .expect hname (.refl _)

/-- Parameters, of which there may be too many. -/
theorem parameters_lead {count : Nat} (h : Lenient.Parameters k count ts params errors) :
    Leads d k ts errors (· = .rightParen) (parts parameter .tooManyParameters count)
      (pure params) := by
  induction h with
  | @last k count name hname =>
    have hlast : Leads d k [name] [] (· = .rightParen) (separatedStep parameter
        (parts parameter .tooManyParameters (count + 1))) (pure [name.mark]) :=
      (parameter_leads hname).lastPart fun _ _ => trivial
    exact .of_eq (fun _ hs => parameters_eq count hs)
      (hlast.onePart.cast rfl (List.append_nil _))
  | @more k count ts params errors name comma hname hcomma _ ih =>
    have hmore : Leads d k (name :: comma :: ts) errors (· = .rightParen) (separatedStep parameter
        (parts parameter .tooManyParameters (count + 1))) (pure (name.mark :: params)) :=
      (parameter_leads hname).morePart hcomma trivial ih
    exact .of_eq (fun _ hs => parameters_eq count hs) hmore.onePart

theorem listing_parameters_leads (h : Lenient.OptionalParameters k ts params errors) :
    Leads d k ts errors (· = .rightParen) (listing parameter .tooManyParameters)
      (pure params) := by
  cases h with
  | absent => exact .check true (by simp [firstKind]) (.refl _)
  | present h =>
    have hlead := parameters_lead (d := d) h
    have hnotParen {name : Token} (hname : name.kind = .identifier) : name.kind ≠ .rightParen := by
      rw [hname]
      decide
    cases h with
    | last hname => exact .listing (hnotParen hname) hlead
    | more hname => exact .listing (hnotParen hname) hlead

/-! ### What is proved of each sort of statement -/

/-- The reader of this sort of statement passes the tokens, records the errors and finds the
tree. -/
@[reducible] def Kept (d k : Nat) : Form → List Token → Node → List SyntaxError → Prop
  | .declarations, ts, e, errors => ∀ es, e = .many es → ∀ (stop : Reader Bool) (stops : Kind → Bool),
    EndsBefore stop (fun t => stops t.kind) → (∀ kind ∈ declarationStarts, stops kind = false) →
      Leads d k ts errors (fun kind => stops kind = true ∧ kind ≠ .elseWord) (declarations stop)
        (pure es)
  | .declaration, ts, e, errors => Leads d k ts errors (· ≠ .elseWord) declaration (pure (some e))
  | .statement ajar, ts, e, errors =>
    Leads d k ts errors (fun kind => ajar = true → kind ≠ .elseWord) statement (pure e)

theorem Kept.noDeclaration : Kept d k .declarations [] (.many []) [] := by
  intro es hes stop stops hstop _
  obtain rfl : [] = es := by
    injection hes
  exact (declarations_stops hstop).mono fun _ hkind => hkind.1

theorem Kept.moreDeclarations (hfirst : Lenient.Statement d k .declaration ts e errors)
    (hrest : Lenient.Statement d (k + ts.length) .declarations us (.many es) errors')
    (ihf : Kept d k .declaration ts e errors)
    (ihr : Kept d (k + ts.length) .declarations us (.many es) errors') :
    Kept d k .declarations (ts ++ us) (.many (e :: es)) (errors ++ errors') := by
  intro fs hfs stop stops hstop hstarts
  obtain rfl : e :: es = fs := by
    injection hfs
  obtain ⟨t, rest, rfl, ht, -⟩ := hfirst.first (by simp)
  have hread : Leads d k (t :: rest) errors (· ≠ .elseWord) declaration (pure (some e)) := ihf
  exact declarations_goesOn hstop (hstarts _ ht) hread (ihr es rfl stop stops hstop hstarts)
    fun _ hkind => hrest.firstKind_ne_else hkind.2

/-- The statements of a block, from the token after its opening brace on. -/
theorem Kept.blockBody {follow : Kind → Prop} (h : Kept d k .declarations ts (.many es) errors)
    (hclose : rightBrace.kind = .rightBrace) :
    Leads d k (ts ++ [rightBrace]) errors follow (Reader.blockBody declaration) (pure es) := by
  have hstarts : ∀ kind ∈ declarationStarts,
      ([Kind.rightBrace].contains kind || kind == .endOfFile) = false := by decide
  exact (h es rfl atBlockEnd (fun kind => [Kind.rightBrace].contains kind || kind == .endOfFile)
    endsBefore_blockEnd hstarts).blockBody (by decide) hclose

theorem Kept.function (hword : word.kind = .funWord) (hname : name.kind = .identifier)
    (hleft : leftParen.kind = .leftParen)
    (hparameters : Lenient.OptionalParameters (k + 3) ts params errors)
    (hright : rightParen.kind = .rightParen) (hopen : leftBrace.kind = .leftBrace)
    (ih : Kept (d + 1) (k + 3 + ts.length + 2) .declarations us (.many es) errors')
    (hclose : rightBrace.kind = .rightBrace) :
    Kept d k .declaration
      (word :: name :: leftParen :: ts ++ rightParen :: leftBrace :: us ++ [rightBrace])
      (.function name.mark params es) (errors ++ errors') := by
  have hbody : Leads (d + 1) (k + 3 + ts.length + 2) (us ++ [rightBrace]) errors' (· ≠ .elseWord)
      (Reader.blockBody declaration) (pure es) := ih.blockBody hclose
  have hfunction := Leads.function hname hleft (listing_parameters_leads hparameters) hright hopen
    hbody
  exact (Leads.declaration_function hword hfunction).cast (by simp) rfl

theorem Kept.statement (h : Lenient.Statement d k (.statement ajar) ts e errors)
    (ih : Kept d k (.statement ajar) ts e errors) : Kept d k .declaration ts e errors := by
  obtain ⟨t, rest, rfl, -, ht⟩ := h.first (by simp)
  have hread : Leads d k (t :: rest) errors (fun kind => ajar = true → kind ≠ .elseWord)
      Reader.statement (pure e) := ih
  exact (Leads.declaration_statement (ht _ rfl) hread).mono fun _ hkind _ => hkind

theorem Kept.expression (h : Lenient.Expression k .expression ts e errors)
    (hsemicolon : semicolon.kind = .semicolon) :
    Kept d k (.statement false) (ts ++ [semicolon]) (.evaluate e) errors := by
  have hread : Leads d k (ts ++ [semicolon]) errors (fun kind => false = true → kind ≠ .elseWord)
      expressionStatement (pure (.evaluate e)) :=
    (Leads.expressionStatement (expression_leads h)).ended hsemicolon (by decide)
  obtain ⟨t, rest, rfl, ht, -⟩ := h.first
  exact Leads.statement_expression ht hread

theorem Kept.print (hword : word.kind = .printWord)
    (h : Lenient.Expression (k + 1) .expression ts e errors)
    (hsemicolon : semicolon.kind = .semicolon) :
    Kept d k (.statement false) (word :: ts ++ [semicolon]) (.print e) errors :=
  .statement_print hword ((Leads.printFrom (expression_leads h)).ended hsemicolon (by decide))

theorem Kept.ifThen (hword : word.kind = .ifWord) (hleft : leftParen.kind = .leftParen)
    (hcondition : Lenient.Expression (k + 2) .expression ts e errors)
    (hright : rightParen.kind = .rightParen)
    (ih : Kept d (k + 2 + ts.length + 1) (.statement ajar) us f errors') :
    Kept d k (.statement true) (word :: leftParen :: ts ++ rightParen :: us)
      (.branch e f .missing) (errors ++ errors') := by
  have hbranch := Leads.ifFrom hleft (expression_leads hcondition) hright ih
  have hmissing := hbranch.stop (Leads.orMissing_absent.map _)
    fun kind (hkind : kind ≠ .elseWord) _ => hkind
  exact (Leads.statement_if hword hmissing).mono fun _ hkind => hkind rfl

theorem Kept.ifElse {elseWord : Token} (hword : word.kind = .ifWord)
    (hleft : leftParen.kind = .leftParen)
    (hcondition : Lenient.Expression (k + 2) .expression ts e errors)
    (hright : rightParen.kind = .rightParen)
    (ihf : Kept d (k + 2 + ts.length + 1) (.statement false) us f errors')
    (helse : elseWord.kind = .elseWord)
    (ihg : Kept d (k + 2 + ts.length + 1 + us.length + 1) (.statement ajar) vs g errors'') :
    Kept d k (.statement ajar)
      (word :: leftParen :: ts ++ rightParen :: us ++ elseWord :: vs) (.branch e f g)
      (errors ++ errors' ++ errors'') := by
  have hbranch := Leads.ifFrom hleft (expression_leads hcondition) hright ihf
  have hindex : k + 2 + ts.length + 1 + us.length
      = k + 1 + (leftParen :: ts ++ rightParen :: us).length := by
    simp only [List.length_append, List.length_cons]
    omega
  rw [hindex] at ihg
  have hbranches := hbranch.trans ((Leads.orMissing_present helse ihg).map _)
    -- The first branch is not ajar, so it may be followed by an `else`.
    fun _ _ hajar => absurd hajar Bool.false_ne_true
  exact .statement_if hword hbranches

theorem Kept.whileLoop (hword : word.kind = .whileWord) (hleft : leftParen.kind = .leftParen)
    (hcondition : Lenient.Expression (k + 2) .expression ts e errors)
    (hright : rightParen.kind = .rightParen)
    (ih : Kept d (k + 2 + ts.length + 1) (.statement ajar) us f errors') :
    Kept d k (.statement ajar) (word :: leftParen :: ts ++ rightParen :: us) (.loop e f)
      (errors ++ errors') :=
  .statement_while hword (.whileFrom hleft (expression_leads hcondition) hright ih)

theorem Kept.forLoop (hword : word.kind = .forWord) (hleft : leftParen.kind = .leftParen)
    (hinitializer : Lenient.Initializer (k + 2) ts e errors)
    (hcondition : Lenient.Optional (k + 2 + ts.length) us f errors')
    (hsemicolon : semicolon.kind = .semicolon)
    (hincrement : Lenient.Optional (k + 2 + ts.length + us.length + 1) vs g errors'')
    (hright : rightParen.kind = .rightParen) {h : Node}
    (ih : Kept d (k + 2 + ts.length + us.length + 1 + vs.length + 1) (.statement ajar) ws h
      errors''') :
    Kept d k (.statement ajar)
      (word :: leftParen :: ts ++ us ++ semicolon :: vs ++ rightParen :: ws)
      (afterInitializer (.loop (orTrue f) (thenIncrement h g)) e)
      (errors ++ errors' ++ errors'' ++ errors''') := by
  have hloop := Leads.forFrom hleft (forInitializer_leads hinitializer)
    (optionalBefore_leads hcondition (by decide)) hsemicolon
    (optionalBefore_leads hincrement (by decide)) hright ih
  rw [← forLoop_eq]
  exact .statement_for hword hloop

theorem Kept.giveBack (hword : word.kind = .returnWord)
    (hvalue : Lenient.Optional (k + 1) ts e errors) (hsemicolon : semicolon.kind = .semicolon) :
    Kept d k (.statement false) (word :: ts ++ [semicolon]) (.giveBack word.mark e)
      (Lenient.returnError d word k ++ errors) := by
  have hreturn : Leads d (k + 1) (ts ++ [semicolon]) errors
      (fun kind => false = true → kind ≠ .elseWord) (returnFrom word)
        (pure (.giveBack word.mark e)) :=
    (optionalBefore_leads hvalue (by decide)).upToLast hsemicolon rfl
  exact .statement_return hword hreturn.returnStatement

theorem Kept.block (hopen : leftBrace.kind = .leftBrace)
    (ih : Kept d (k + 1) .declarations ts (.many es) errors)
    (hclose : rightBrace.kind = .rightBrace) :
    Kept d k (.statement false) (leftBrace :: ts ++ [rightBrace]) (.block es) errors :=
  .statement_block hopen (ih.blockBody hclose)

/-- Nothing of a lenient statement is lost. -/
theorem kept {form : Form} (h : Lenient.Statement d k form ts e errors) :
    Kept d k form ts e errors := by
  induction h with
  | noDeclaration => exact .noDeclaration
  | moreDeclarations hfirst hrest ihf ihr => exact .moreDeclarations hfirst hrest ihf ihr
  | function hword hname hleft hparameters hright hopen _ hclose ih =>
    exact .function hword hname hleft hparameters hright hopen ih hclose
  | declare hword h => exact .declaration_variable hword (variableFrom_leads h)
  | statement h ih => exact .statement h ih
  | expression h hsemicolon => exact .expression h hsemicolon
  | print hword h hsemicolon => exact .print hword h hsemicolon
  | ifThen hword hleft hcondition hright _ ih => exact .ifThen hword hleft hcondition hright ih
  | ifElse hword hleft hcondition hright _ helse _ ihf ihg =>
    exact .ifElse hword hleft hcondition hright ihf helse ihg
  | whileLoop hword hleft hcondition hright _ ih =>
    exact .whileLoop hword hleft hcondition hright ih
  | forLoop hword hleft hinitializer hcondition hsemicolon hincrement hright _ ih =>
    exact .forLoop hword hleft hinitializer hcondition hsemicolon hincrement hright ih
  | giveBack hword hvalue hsemicolon => exact .giveBack hword hvalue hsemicolon
  | block hopen _ hclose ih => exact .block hopen ih hclose

end Reader

open Reader

/-- A program in which there are no faults but targets of assignments that are no names, too many
arguments or parameters, and `return` outside every function body, is read to its end.  Its
trees are those of its derivation, and its errors those that the derivation says, of which the
listener is told. -/
theorem in_place_faults_lose_nothing {tokens : List Token} {statements : List Node}
    {errors : List SyntaxError} (htokens : EndsOnce tokens)
    (h : Grammar.Lenient.Program tokens statements errors) :
    Program.ofTokens tokens = ⟨statements, errors, errors⟩ := by
  cases h with
  | intro h hend =>
    have hstarts : ∀ kind ∈ Grammar.declarationStarts, (kind == Kind.endOfFile) = false := by
      decide
    have hlead := kept h _ rfl atEnd (fun kind => kind == .endOfFile) endsBefore_end hstarts
    refine Program.ofTokens_of_leads htokens hend (hlead.mono ?_)
    rintro _ rfl
    decide

/-- In `return f(1 = 2);` the `return` stands outside every function body and the target of the
assignment is no name.  The statement is read to its end, with the left side as the argument. -/
theorem in_place_faults_lose_nothing_of_return :
    let word := tokenIn 1 .returnWord "return"
    let name := tokenIn 8 .identifier "f"
    let one := tokenIn 10 .number "1"
    let equal := tokenIn 12 .equal "="
    let paren := tokenIn 15 .rightParen ")"
    let tokens := [word, name, tokenIn 9 .leftParen "(", one, equal, tokenIn 14 .number "2", paren,
      tokenIn 16 .semicolon ";", tokenIn 17 .endOfFile ""]
    let errors : List SyntaxError := [⟨word, 0, .topLevelReturn⟩, ⟨equal, 4, .assignmentTarget⟩]
    EndsOnce tokens ∧ Program.ofTokens tokens = ⟨[.giveBack word.mark
      (.call (.reference name.mark) paren.mark [.literal one.literal])], errors, errors⟩ := by
  intro word name one equal paren tokens errors
  have hends : EndsOnce tokens := ⟨tokens.dropLast, tokens.getLast (by simp [tokens]), rfl, rfl,
    by decide⟩
  have hassignment : Grammar.Lenient.Expression 3 .expression
      ([one] ++ equal :: [tokenIn 14 .number "2"]) (.literal one.literal)
        ([] ++ [] ++ [⟨equal, 4, .assignmentTarget⟩]) :=
    .invalidAssignment (.ofCall (.uncalled (.literal rfl)))
      (by rintro name hname ⟨⟩; cases hname) rfl
      (.disjunction (.ofCall (.uncalled (.literal rfl))))
  have hcall : Grammar.Lenient.Expression 1 .call
      ([name] ++ tokenIn 9 .leftParen "(" :: (one :: [equal, tokenIn 14 .number "2"]) ++ [paren])
        (.call (.reference name.mark) paren.mark [.literal one.literal]) _ :=
    .callWith (.uncalled (.reference rfl)) rfl (.lastArgument hassignment) rfl
  have hreturn : Grammar.Lenient.Statement 0 0 (.statement false)
      (word :: _ ++ [tokenIn 16 .semicolon ";"]) _ _ :=
    .giveBack rfl (.present (.disjunction (.ofCall hcall))) rfl
  exact ⟨hends, in_place_faults_lose_nothing hends
    (.intro (.moreDeclarations (.statement hreturn) .noDeclaration) rfl)⟩

end LoxLang
