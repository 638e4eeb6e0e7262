/-
Statements without their semicolon.

A statement that is left without its semicolon is given up at the token that comes next, unless
this one goes on with it (`Reader.Breaks`).  The fault is passed on by every statement around it
that ends there too, up to the declaration, which is dropped.

* `Reader.expression_fails` — where no expression begins, there is a fault at once;
* `Reader.breaking` — declarations that end with a semicolon, by induction on their derivation.
-/
import LoxLang.Proofs.Reader.StatementLeading

namespace LoxLang.Reader

open Grammar Reading

variable {d k : Nat} {t : Token} {ts us : List Token} {e : Node} {follow : Kind → Prop}

/-! ### What does not go on with a statement -/

/-- With a token of this kind next, nothing goes on with a statement that has these tokens in
front of its semicolon: it begins a declaration, but neither an argument list nor a difference,
nor the value of a `return`. -/
structure Breaks (ts : List Token) (kind : Kind) : Prop where
  starts : kind ∈ Kind.endOfFile :: declarationStarts
  operand : kind ∉ [Kind.leftParen, .minus]
  value : ∀ t ∈ ts.getLast?, t.kind = .returnWord → kind ∉ Grammar.starts

namespace Breaks

variable {kind : Kind}

theorem not_mem (h : Breaks ts kind) : kind ∉ Kind.semicolon :: Kind.equal :: continuing levels := by
  have hkinds : ∀ kind ∈ Kind.endOfFile :: declarationStarts, kind ∉ [Kind.leftParen, .minus] →
      kind ∉ Kind.semicolon :: Kind.equal :: continuing levels := by decide
  exact hkinds kind h.starts h.operand

theorem ne_semicolon (h : Breaks ts kind) : kind ≠ .semicolon :=
  fun heq => h.not_mem (heq ▸ List.mem_cons_self)

theorem not_continuing (h : Breaks ts kind) : kind ∉ Kind.equal :: continuing levels :=
  fun hmem => h.not_mem (List.mem_cons_of_mem _ hmem)

/-- It is only the last token that matters. -/
theorem of_suffix (h : Breaks ts kind) (hus : us <:+ ts) : Breaks us kind where
  starts := h.starts
  operand := h.operand
  value t ht := by
    obtain ⟨vs, rfl⟩ := hus
    exact h.value t (by simp [Option.mem_def.mp ht])

end Breaks

/-- Nothing that begins no expression is read as one. -/
theorem expression_fails :
    Leads d k [] [] (fun kind => kind ∈ Kind.endOfFile :: declarationStarts ∧ kind ∉ starts)
      expression (fail .expression) := by
  intro s next hsees _ _ hnext
  rw [List.length_nil, past_nil, skip_zero]
  have hcurrent : s.cursor.current.kind = next.kind := by rw [hsees.current_of_nil]
  have hprimary : primary expression s = fail .expression s := by
    have hkinds : ∀ kind ∈ Kind.endOfFile :: declarationStarts, kind ∉ starts →
        kind ∉ Kind.error :: primaryStarts := by decide
    have hkind := hkinds _ hnext.1 hnext.2
    rw [← hcurrent] at hkind
    rw [primary, peek_bind]
    cases hkind' : s.cursor.current.kind with
    | falseWord | trueWord | nilWord | number | string | identifier | leftParen | error =>
      exact absurd (by rw [hkind']; decide) hkind
    | _ => rfl
  have hunary : unary s = fail .expression s := by
    have hsign : [Kind.bang, .minus].contains s.cursor.current.kind = false := by
      have hkinds : ∀ kind, kind ∉ starts → [Kind.bang, .minus].contains kind = false := by
        intro kind hkind
        simp [starts] at hkind
        simp [hkind]
      rw [hcurrent]
      exact hkinds _ hnext.2
    rw [unary_eq hsees.ends, prefixed, check_bind, hsign, if_neg Bool.false_ne_true, called_eq]
    exact bind_of_failed hprimary
  have hoperands (ls : List Level) : operands ls unary s = fail .expression s := by
    induction ls with
    | nil => exact hunary
    | cons level ls ih => exact bind_of_failed ih
  rw [expression_eq hsees.ends, assignment_eq]
  exact bind_of_failed (hoperands levels)

/-! ### In front of the missing semicolon -/

section

variable {word semicolon leftParen rightParen : Token} {fault : SyntaxFault} {p' : Reader Node}
  {f g h : Node} {vs ws : List Token} {ajar : Bool}

/-- A statement that is left without its semicolon is given up at what comes next. -/
theorem Leads.unended (h : Leads d k ts [] follow p' (ending fault e))
    (hfollow : ∀ kind, Breaks us kind → follow kind) :
    Leads d k ts [] (Breaks us) p' (fail fault) :=
  h.stop (ending_fails.mono fun _ hkind => hkind.ne_semicolon) hfollow

theorem variableFrom_breaks (h : Variable us e) (hus : us = ts ++ [semicolon]) :
    Leads d k ts [] (Breaks (word :: ts)) variableFrom (fail .semicolonAfterVariable) := by
  cases h with
  | @bare name last hname =>
    obtain ⟨rfl, -⟩ := List.append_inj' (show [name] ++ [last] = ts ++ [semicolon] from hus) rfl
    exact (Leads.variableFrom_bare hname).unended fun _ hkind heq =>
      hkind.not_continuing (heq ▸ List.mem_cons_self)
  | @initialized ts' e name equal last hname hequal he =>
    obtain ⟨rfl, -⟩ := List.append_inj' hus rfl
    exact (Leads.variableFrom_initialized hname hequal (readsExpression_of_derived he)).unended
      fun _ hkind => hkind.not_continuing

theorem returnStatement_breaks (h : Optional ts e) (hd : d ≠ 0) (hword : word.kind = .returnWord) :
    ∃ fault, ∀ k, Leads d k (word :: ts) [] (Breaks (word :: ts)) returnStatement (fail fault) := by
  have hinside (k : Nat) : Lenient.returnError d word k = [] := if_neg hd
  cases h with
  | absent =>
    -- Without the semicolon a value is expected, and the fault is the one of an expression.
    refine ⟨.expression, fun k => ?_⟩
    have hvalue : Leads d (k + 1) [] [] (Breaks [word]) (optionalBefore .semicolon)
        (fail .expression) := by
      refine .check false (fun kind hkind => ?_) (expression_fails.mono fun kind hkind => ?_)
      · simpa [firstKind] using hkind.ne_semicolon
      · exact ⟨hkind.starts, hkind.value word rfl hword⟩
    have hreturn : Leads d (k + 1) [] [] (Breaks [word]) (returnFrom word) (fail .expression) :=
      hvalue.bind _
    exact hreturn.returnStatement.cast rfl (by rw [hinside, List.append_nil])
  | present he =>
    obtain ⟨t, rest, rfl, ht, -⟩ := he.first
    have hsemicolon : ∀ kind ∈ starts, kind ≠ .semicolon := by decide
    refine ⟨.semicolonAfterReturned, fun k => ?_⟩
    have hvalue : Leads d (k + 1) (t :: rest) [] (· ∉ Kind.equal :: continuing levels)
        (returnFrom word) (ending .semicolonAfterReturned (.giveBack word.mark _)) :=
      (Leads.optionalBefore_present (hsemicolon _ ht) (readsExpression_of_derived he)).map _
    exact (hvalue.unended fun _ hkind => hkind.not_continuing).returnStatement.cast rfl
      (by rw [hinside, List.append_nil])

/-- What is proved of each sort of statement that ends with a semicolon: without it the statement
is given up at what comes next. -/
def Breaking (d : Nat) : Form → List Token → Prop
  | .declarations, _ => True
  | .declaration, ts => ∃ fault, ∀ k,
    Leads d k ts [] (Breaks ts) declaration (Reader.recovering (fail fault))
  | .statement _, ts => ∃ fault, ∀ k, Leads d k ts [] (Breaks ts) statement (fail fault)

/-- There is a first token in front of the semicolon. -/
theorem first_of_ended {form : Form} (h : Statement d form (ts ++ [semicolon]) e)
    (hform : form ≠ .declarations) (hsemicolon : semicolon.kind = .semicolon) :
    ∃ t rest, ts = t :: rest ∧ t.kind ∈ declarationStarts ∧
      ∀ ajar, form = .statement ajar → t.kind ∈ statementStarts := by
  obtain ⟨t, rest, hts, ht, hstatement⟩ := h.first hform
  cases ts with
  | nil =>
    have hstarts : Kind.semicolon ∉ declarationStarts := by decide
    rw [← (List.cons.inj hts).1, hsemicolon] at ht
    exact absurd ht hstarts
  | cons u ts =>
    rw [← (List.cons.inj hts).1] at ht hstatement
    exact ⟨u, ts, rfl, ht, hstatement⟩

/-- What stands at the end of a statement ends where the statement does. -/
theorem eq_concat_of_append (hus : us ≠ []) (h : vs ++ t :: us = ts ++ [semicolon]) :
    ∃ us', us = us' ++ [semicolon] ∧ ts = vs ++ t :: us' := by
  obtain ⟨us', u, rfl⟩ := List.eq_nil_or_concat us |>.resolve_left hus
  rw [List.concat_eq_append, ← List.cons_append, ← List.append_assoc] at h
  obtain ⟨rfl, hu⟩ := List.append_inj' h rfl
  exact ⟨us', by rw [List.concat_eq_append, hu], rfl⟩

theorem ne_nil_of_statement (h : Statement d (.statement ajar) us e) : us ≠ [] := by
  obtain ⟨t, rest, rfl, -⟩ := h.first (by simp)
  exact List.cons_ne_nil t rest

theorem ne_nil_of_variable (h : Variable us e) : us ≠ [] := by
  cases h with
  | bare => exact List.cons_ne_nil _ _
  | initialized => exact List.cons_ne_nil _ _

theorem Breaking.ifThen (hword : word.kind = .ifWord) (hleft : leftParen.kind = .leftParen)
    (he : Expression .expression ts e) (hright : rightParen.kind = .rightParen)
    (ih : Breaking d (.statement ajar) us) :
    Breaking d (.statement true) (word :: leftParen :: ts ++ rightParen :: us) := by
  obtain ⟨fault, ih⟩ := ih
  refine ⟨fault, fun k => ?_⟩
  have hif : Leads d k (word :: leftParen :: ts ++ rightParen :: us) [] (Breaks us) statement
      (fail fault) :=
    .statement_if hword (.ifFrom hleft (readsExpression_of_derived he) hright (ih _))
  exact hif.mono fun _ hkind => hkind.of_suffix ⟨word :: leftParen :: ts ++ [rightParen], by simp⟩

theorem Breaking.ifElse {elseWord : Token} (hword : word.kind = .ifWord)
    (hleft : leftParen.kind = .leftParen) (he : Expression .expression ts e)
    (hright : rightParen.kind = .rightParen) (hf : Statement d (.statement false) us f)
    (helse : elseWord.kind = .elseWord) (ih : Breaking d (.statement ajar) vs) :
    Breaking d (.statement ajar)
      (word :: leftParen :: ts ++ rightParen :: us ++ elseWord :: vs) := by
  obtain ⟨fault, ih⟩ := ih
  refine ⟨fault, fun k => ?_⟩
  have hif : Leads d k (word :: leftParen :: ts ++ rightParen :: us) []
      (fun kind => false = true → kind ≠ .elseWord) statement
      (orMissing .elseWord statement >>= fun g => pure (Node.branch e f g)) :=
    .statement_if hword (.ifFrom hleft (readsExpression_of_derived he) hright (.of_statement hf))
  have helseBranch (k : Nat) : Leads d k (elseWord :: vs) [] (Breaks vs)
      (orMissing .elseWord statement >>= fun g => pure (Node.branch e f g)) (fail fault) :=
    (Leads.orMissing_present helse (ih _)).bind _
  exact (hif.trans (helseBranch _) (by simp)).mono fun _ hkind => hkind.of_suffix
    ⟨word :: leftParen :: ts ++ rightParen :: us ++ [elseWord], by simp⟩

theorem Breaking.whileLoop (hword : word.kind = .whileWord) (hleft : leftParen.kind = .leftParen)
    (he : Expression .expression ts e) (hright : rightParen.kind = .rightParen)
    (ih : Breaking d (.statement ajar) us) :
    Breaking d (.statement ajar) (word :: leftParen :: ts ++ rightParen :: us) := by
  obtain ⟨fault, ih⟩ := ih
  refine ⟨fault, fun k => ?_⟩
  have hwhile : Leads d k (word :: leftParen :: ts ++ rightParen :: us) [] (Breaks us) statement
      (fail fault) :=
    .statement_while hword (.whileFrom hleft (readsExpression_of_derived he) hright (ih _))
  exact hwhile.mono fun _ hkind => hkind.of_suffix
    ⟨word :: leftParen :: ts ++ [rightParen], by simp⟩

theorem Breaking.forLoop (hword : word.kind = .forWord) (hleft : leftParen.kind = .leftParen)
    (he : Initializer ts e) (hf : Optional us f) (hsemicolon : semicolon.kind = .semicolon)
    (hg : Optional vs g) (hright : rightParen.kind = .rightParen)
    (ih : Breaking d (.statement ajar) ws) :
    Breaking d (.statement ajar)
      (word :: leftParen :: ts ++ us ++ semicolon :: vs ++ rightParen :: ws) := by
  obtain ⟨fault, ih⟩ := ih
  refine ⟨fault, fun k => ?_⟩
  have hfor : Leads d k (word :: leftParen :: ts ++ us ++ semicolon :: vs ++ rightParen :: ws) []
      (Breaks ws) statement (fail fault) :=
    .statement_for hword (.forFrom hleft (.of_initializer he) (.of_optional hf (by decide))
      hsemicolon (.of_optional hg (by decide)) hright (ih _))
  exact hfor.mono fun _ hkind => hkind.of_suffix
    ⟨word :: leftParen :: ts ++ us ++ semicolon :: vs ++ [rightParen], by simp⟩

theorem breaking {form : Form} (h : Statement d form us e) (hus : us = ts ++ [semicolon])
    (hsemicolon : semicolon.kind = .semicolon) : Breaking d form ts := by
  -- A statement that ends with a brace has no semicolon to leave out.
  have hbrace {rightBrace : Token} (hclose : rightBrace.kind = .rightBrace)
      (heq : [rightBrace] = [semicolon]) : False := by
    rw [List.singleton_inj.mp heq, hsemicolon] at hclose
    cases hclose
  induction h generalizing ts with
  | noDeclaration | moreDeclarations => trivial
  | function _ _ _ _ _ _ _ _ hclose => exact (hbrace hclose (List.append_inj' hus rfl).2).elim
  | declare hword h =>
    have hus' : [] ++ _ :: _ = ts ++ [semicolon] := hus
    obtain ⟨us', rfl, rfl⟩ := eq_concat_of_append (ne_nil_of_variable h) hus'
    exact ⟨_, fun k => .declaration_variable hword (variableFrom_breaks h rfl)⟩
  | statement h ih =>
    obtain ⟨fault, hread⟩ := ih hus
    subst hus
    obtain ⟨t, rest, rfl, -, ht⟩ := first_of_ended h (by simp) hsemicolon
    exact ⟨fault, fun k => .declaration_statement (ht _ rfl) (hread k)⟩
  | expression h =>
    obtain ⟨rfl, -⟩ := List.append_inj' hus rfl
    obtain ⟨t, rest, rfl, ht, -⟩ := h.first
    exact ⟨_, fun k => .statement_expression ht ((Leads.expressionStatement
      (readsExpression_of_derived h)).unended fun _ hkind => hkind.not_continuing)⟩
  | print hword h =>
    obtain ⟨rfl, -⟩ := List.append_inj' hus rfl
    exact ⟨_, fun k => .statement_print hword ((Leads.printFrom
      (readsExpression_of_derived h)).unended fun _ hkind => hkind.not_continuing)⟩
  | ifThen hword hleft he hright hbody ih =>
    obtain ⟨us', hus', rfl⟩ := eq_concat_of_append (ne_nil_of_statement hbody) hus
    exact .ifThen hword hleft he hright (ih hus')
  | ifElse hword hleft he hright hf helse hg _ ih =>
    obtain ⟨us', hus', rfl⟩ := eq_concat_of_append (ne_nil_of_statement hg) hus
    exact .ifElse hword hleft he hright hf helse (ih hus')
  | whileLoop hword hleft he hright hbody ih =>
    obtain ⟨us', hus', rfl⟩ := eq_concat_of_append (ne_nil_of_statement hbody) hus
    exact .whileLoop hword hleft he hright (ih hus')
  | forLoop hword hleft he hf hlast hg hright hbody ih =>
    obtain ⟨us', hus', rfl⟩ := eq_concat_of_append (ne_nil_of_statement hbody) hus
    exact .forLoop hword hleft he hf hlast hg hright (ih hus')
  | giveBack hword he _ hinside =>
    obtain ⟨rfl, -⟩ := List.append_inj' hus rfl
    obtain ⟨fault, hread⟩ := returnStatement_breaks he hinside hword
    exact ⟨fault, fun k => .statement_return hword (hread k)⟩
  | block _ _ hclose => exact (hbrace hclose (List.append_inj' hus rfl).2).elim

end

end LoxLang.Reader
