/-
Every lenient expression is read to its end.

The readers of expressions pass the tokens of a derivation in the lenient grammar, record its
errors and find its tree.  `Reader.ReadThrough` says for each tier where the reader of that tier
leads, and there is one lemma for each rule of the grammar, so that `readThrough` is an induction
on the derivation.  As in the grammar without faults, a reader that groups to the left is not
done after its first operand: it leads to what comes after that.
-/
import LoxLang.Proofs.Reader.Leading
import LoxLang.Proofs.Reader.LenientGrammar

namespace LoxLang

/-! ### First tokens -/

namespace Grammar.Lenient

/-- A name is the only expression with the tree of a name. -/
theorem Expression.eq_reference {k : Nat} {ts : List Token} {m : Mark} {errors : List SyntaxError}
    {ls : List Level} (h : Expression k (.chain ls) ts (.reference m) errors) :
    ∃ name : Token, name.kind = .identifier ∧ ts = [name] := by
  generalize htier : Tier.chain ls = tier, he : Node.reference m = e at h
  have key : tier ≠ .expression → ∃ name : Token, name.kind = .identifier ∧ ts = [name] := by
    clear htier
    induction h with
    | reference hname => exact fun _ => ⟨_, hname, rfl⟩
    | tighter _ ih | operand _ ih | called _ ih | uncalled _ ih => exact fun _ => ih he (by simp)
    | operator => exact (Level.build_ne_reference _ _ _ _ _ he.symm).elim
    | disjunction | assignment | invalidAssignment => exact fun hne => absurd rfl hne
    | _ => cases he
  exact key (by simp [← htier])

/-- A lenient expression begins with a token of the same kinds as one without faults. -/
theorem Expression.first {k : Nat} {tier : Tier} {ts : List Token} {e : Node}
    {errors : List SyntaxError} (h : Expression k tier ts e errors) :
    ∃ t rest, ts = t :: rest ∧ t.kind ∈ starts ∧
      (tier = .call ∨ tier = .primary → t.kind ∈ primaryStarts) := by
  have hsub : primaryStarts ⊆ starts := by decide
  induction h with
  | assignment hname => exact ⟨_, _, rfl, by simp [hname, starts, primaryStarts], by simp⟩
  | disjunction _ ih | tighter _ ih | operand _ ih | called _ ih | lastArgument _ ih =>
    obtain ⟨t, rest, hts, ht, -⟩ := ih
    exact ⟨t, rest, hts, ht, by simp⟩
  | invalidAssignment _ _ _ _ ih | operator _ _ _ ih | argument _ _ _ ih =>
    obtain ⟨t, rest, hts, ht, -⟩ := ih
    exact ⟨t, _, by rw [hts]; rfl, ht, by simp⟩
  | prefixed hop =>
    refine ⟨_, _, rfl, ?_, by simp⟩
    rcases hop with hop | hop
    · simp [hop, starts]
    · simp [hop, starts]
  | uncalled _ ih =>
    obtain ⟨t, rest, hts, -, ht⟩ := ih
    exact ⟨t, rest, hts, hsub (ht (.inr rfl)), fun _ => ht (.inr rfl)⟩
  | callWithout _ _ _ ih | callWith _ _ _ _ ih =>
    obtain ⟨t, rest, rfl, -, ht⟩ := ih
    exact ⟨t, _, rfl, hsub (ht (.inl rfl)), fun _ => ht (.inl rfl)⟩
  | literal hj => exact ⟨_, _, rfl, hsub (literal?_start hj), fun _ => literal?_start hj⟩
  | reference hname =>
    exact ⟨_, _, rfl, by simp [hname, starts, primaryStarts], by simp [hname, primaryStarts]⟩
  | grouping hleft =>
    exact ⟨_, _, rfl, by simp [hleft, starts, primaryStarts], by simp [hleft, primaryStarts]⟩

end Grammar.Lenient

namespace Reader

open Grammar Reading

variable {d k count : Nat} {ts us : List Token} {t op name equal leftParen rightParen comma : Token}
  {e f : Node} {es : List Node} {errors errors' : List SyntaxError} {level : Level}
  {ls : List Level}

/-! ### What is proved of each tier -/

/-- The reader of this tier passes the tokens and records the errors; then it is done, or goes on
with what comes after the first operand. -/
def ReadThrough (k : Nat) : Lenient.Tier → List Token → Node → List SyntaxError → Prop
  | .expression, ts, e, errors => ∀ d, Leads d k ts errors (· ∉ Kind.equal :: continuing levels)
    expression (pure e)
  | .chain [], ts, e, errors => ∀ d, Leads d k ts errors (· ≠ .leftParen) unary (pure e)
  | .chain (level :: ls), ts, e, errors => level :: ls <:+ levels → ∀ d,
    Leads d k ts errors (· ∉ continuing ls) (operands (level :: ls) unary) (chained level ls e)
  | .unary, ts, e, errors => ∀ d, Leads d k ts errors (· ≠ .leftParen) unary (pure e)
  | .call, ts, e, errors => ∀ d, Leads d k ts errors (fun _ => True) (called expression) (calls e)
  | .primary, ts, e, errors => ∀ d,
    Leads d k ts errors (fun _ => True) (primary expression) (pure e)
  | .arguments count, ts, e, errors => ∀ es, e = .many es → ∀ d,
    Leads d k ts errors (· = .rightParen) (parts expression .tooManyArguments count) (pure es)

/-! ### Operators between operands -/

theorem chained_stops (hls : level :: ls <:+ levels) (e : Node) :
    Leads d k [] [] (· ∉ level.operators) (chained level ls e) (pure e) :=
  .of_eq (fun _ hs => chained_eq hls e hs) (.check false (by simp [firstKind]) (.refl _))

theorem chained_goesOn (hls : level :: ls <:+ levels) (e : Node) (hop : op.kind ∈ level.operators)
    {follow : Kind → Prop} (hright : Leads d (k + 1) us errors follow (operands ls unary) (pure f)) :
    Leads d k (op :: us) errors follow (chained level ls e)
      (chained level ls (level.build e op.mark f)) :=
  .of_eq (fun _ hs => chained_eq hls e hs)
    (.check true (by simp [firstKind, hop]) (.advance (hright.map _)))

theorem ReadThrough.operands (h : ReadThrough k (.chain ls) ts e errors) (hls : ls <:+ levels) :
    Leads d k ts errors (· ∉ continuing ls) (Reader.operands ls unary) (pure e) := by
  cases ls with
  | nil => exact (h d).mono fun kind hkind heq => hkind (by simp [continuing, heq])
  | cons level ls =>
    have hstop := (chained_stops (d := d) (k := k + ts.length) hls e).mono
      fun kind (hkind : kind ∉ continuing (level :: ls)) hmem => hkind (by simp [continuing, hmem])
    exact (h hls d).stop hstop fun kind hkind hmem => hkind (continuing_subset hmem)

theorem ReadThrough.tighter (h : ReadThrough k (.chain ls) ts e errors) :
    ReadThrough k (.chain (level :: ls)) ts e errors :=
  fun hls _ => (h.operands ((List.suffix_cons level ls).trans hls)).map _

theorem ReadThrough.operator (hleft : ReadThrough k (.chain (level :: ls)) ts e errors)
    (hop : op.kind ∈ level.operators)
    (hright : ReadThrough (k + ts.length + 1) (.chain ls) us f errors') :
    ReadThrough k (.chain (level :: ls)) (ts ++ op :: us) (level.build e op.mark f)
      (errors ++ errors') := by
  intro hls d
  -- The operator belongs to no tighter level.
  exact (hleft hls d).trans
    (chained_goesOn hls e hop (hright.operands ((List.suffix_cons level ls).trans hls)))
    fun _ _ => not_mem_continuing hls hop

/-! ### Calls -/

theorem calls_stops (e : Node) : Leads d k [] [] (· ≠ .leftParen) (calls e) (pure e) :=
  .of_eq (fun _ hs => calls_eq e hs) (.accept_no (fun _ hkind => hkind) (.refl _))

theorem calls_goesOn (e : Node) (hleft : leftParen.kind = .leftParen)
    (harguments : Leads d (k + 1) us errors (· = .rightParen)
      (listing expression .tooManyArguments) (pure es)) (hright : rightParen.kind = .rightParen) :
    Leads d k (leftParen :: us ++ [rightParen]) errors (fun _ => True) (calls e)
      (calls (.call e rightParen.mark es)) := by
  have h : Leads d (k + 1) (us ++ [rightParen]) errors (fun _ => True)
      (listing expression .tooManyArguments >>= fun arguments =>
        expect .rightParen .parenAfterArguments >>= fun paren =>
          calls (.call e paren.mark arguments)) (calls (.call e rightParen.mark es)) :=
    harguments.upToLast hright rfl
  exact .of_eq (fun _ hs => calls_eq e hs) (.accept_yes hleft h)

theorem ReadThrough.uncalled (h : ReadThrough k .primary ts e errors) :
    ReadThrough k .call ts e errors :=
  fun d => (h d).map calls

theorem ReadThrough.call (hcallee : ReadThrough k .call ts e errors)
    (hleft : leftParen.kind = .leftParen)
    (harguments : ∀ d, Leads d (k + ts.length + 1) us errors' (· = .rightParen)
      (listing expression .tooManyArguments) (pure es)) (hright : rightParen.kind = .rightParen) :
    ReadThrough k .call (ts ++ leftParen :: us ++ [rightParen]) (.call e rightParen.mark es)
      (errors ++ errors') := by
  intro d
  have h := (hcallee d).trans (calls_goesOn e hleft (harguments d) hright) fun _ _ => trivial
  exact h.cast (by simp) rfl

theorem ReadThrough.callWithout (hcallee : ReadThrough k .call ts e errors)
    (hleft : leftParen.kind = .leftParen) (hright : rightParen.kind = .rightParen) :
    ReadThrough k .call (ts ++ [leftParen, rightParen]) (.call e rightParen.mark []) errors := by
  have harguments (d : Nat) : Leads d (k + ts.length + 1) [] [] (· = .rightParen)
      (listing expression .tooManyArguments) (pure []) :=
    .check true (by simp [firstKind]) (.refl _)
  intro d
  exact (hcallee.call hleft harguments hright d).cast (by simp) (List.append_nil _)

theorem ReadThrough.called (h : ReadThrough k .call ts e errors)
    (hstart : ∃ t rest, ts = t :: rest ∧ t.kind ∈ primaryStarts) :
    ReadThrough k .unary ts e errors := by
  obtain ⟨t, rest, rfl, ht⟩ := hstart
  have hsign : ∀ kind ∈ primaryStarts, [Kind.bang, .minus].contains kind = false := by decide
  intro d
  -- There is no sign, so that the operand is a call.
  have hcalled : Leads d k (t :: rest) errors (fun _ => True) unary (calls e) :=
    .of_eq (fun _ hs => unary_eq hs) (.check false (fun _ _ => hsign _ ht) (h d))
  exact hcalled.stop (calls_stops e) fun _ _ => trivial

theorem ReadThrough.prefixed (hop : op.kind = .bang ∨ op.kind = .minus)
    (h : ReadThrough (k + 1) .unary ts e errors) :
    ReadThrough k .unary (op :: ts) (.unary op.mark e) errors := by
  intro d
  have hsign : ∀ kind : Kind, kind ≠ .leftParen →
      [Kind.bang, .minus].contains (firstKind (op :: ts) kind) = true := by
    simpa [firstKind] using fun _ _ => hop
  exact .of_eq (fun _ hs => unary_eq hs) (.check true hsign (.advance ((h d).map _)))

/-! ### Arguments -/

section

variable {α : Type} {part : Reader α} {rest : Reader (List α)} {tooMany : SyntaxFault} {a : α}
  {as : List α} {follow : Kind → Prop}

/-- With too many parts before it, a part is read after an error at its first token. -/
theorem Leads.onePart {q : Reader (List α)}
    (h : Leads d k (t :: ts) errors follow (separatedStep part rest) q) :
    Leads d k (t :: ts) (Lenient.limitError count t k tooMany ++ errors) follow
      (partStep part tooMany count rest) q := by
  intro s next hsees hd hk hfollow
  rw [partStep, Lenient.limitError]
  split
  · have hfault : faultHere s tooMany = ⟨t, k, tooMany⟩ := by rw [faultHere, hsees.current, hk]
    have hrecorded := h (s.past 0 [faultHere s tooMany]) next hsees hd hk hfollow
    rw [past_past, Nat.zero_add, hfault] at hrecorded
    rw [recorded_eq_past, hfault]
    exact hrecorded
  · exact h s next hsees hd hk hfollow

theorem Leads.lastPart (hpart : Leads d k ts errors follow part (pure a)) 
    (hfollow : ∀ kind, kind = .rightParen → follow kind) :
    Leads d k ts errors (· = .rightParen) (separatedStep part rest) (pure [a]) := by
  have hcomma : Leads d (k + ts.length) [] [] (· = .rightParen) (accept .comma >>= fun b =>
      if b then rest >>= fun others => pure (a :: others) else pure [a]) (pure [a]) :=
    .accept_no (by rintro _ rfl; decide) (.refl _)
  exact (hpart.map _).stop hcomma hfollow

theorem Leads.morePart (hpart : Leads d k ts errors follow part (pure a)) 
    (hcomma : comma.kind = .comma) (hfollow : follow .comma)
    (hrest : Leads d (k + ts.length + 1) us errors' (· = .rightParen) rest (pure as)) :
    Leads d k (ts ++ comma :: us) (errors ++ errors') (· = .rightParen) (separatedStep part rest)
      (pure (a :: as)) := by
  refine hpart.seq (.accept_yes hcomma (hrest.map _)) fun _ _ => ?_
  rwa [← hcomma] at hfollow

/-- Some parts, which do not begin with a closing parenthesis. -/
theorem Leads.listing {q : Reader (List α)} (ht : t.kind ≠ .rightParen)
    (h : Leads d k (t :: ts) errors follow (parts part tooMany 0) q) :
    Leads d k (t :: ts) errors follow (Reader.listing part tooMany) q :=
  .check false (by simpa [firstKind] using fun _ _ => ht) h

end

theorem ReadThrough.lastArgument (h : ReadThrough k .expression (t :: ts) e errors) :
    ReadThrough k (.arguments count) (t :: ts) (.many [e])
      (Lenient.limitError count t k .tooManyArguments ++ errors) := by
  intro es hes d
  obtain rfl : [e] = es := by
    injection hes
  have hstop : ∀ kind : Kind, kind = .rightParen → kind ∉ Kind.equal :: continuing levels := by
    rintro _ rfl
    decide
  exact .of_eq (fun _ hs => arguments_eq count hs) (.onePart ((h d).lastPart hstop))

theorem ReadThrough.argument {fs : List Node} (h : ReadThrough k .expression (t :: ts) e errors)
    (hcomma : comma.kind = .comma)
    (hrest : ReadThrough (k + (t :: ts).length + 1) (.arguments (count + 1)) us (.many fs) errors') :
    ReadThrough k (.arguments count) (t :: ts ++ comma :: us) (.many (e :: fs))
      (Lenient.limitError count t k .tooManyArguments ++ errors ++ errors') := by
  intro es hes d
  obtain rfl : e :: fs = es := by
    injection hes
  have hparts := (h d).morePart hcomma (by decide) (hrest fs rfl d)
  rw [List.append_assoc]
  exact .of_eq (fun _ hs => arguments_eq count hs) (.onePart hparts)

theorem ReadThrough.callWith (hcallee : ReadThrough k .call ts e errors)
    (hleft : leftParen.kind = .leftParen)
    (hus : Lenient.Expression (k + ts.length + 1) (.arguments 0) us (.many es) errors')
    (harguments : ReadThrough (k + ts.length + 1) (.arguments 0) us (.many es) errors')
    (hright : rightParen.kind = .rightParen) :
    ReadThrough k .call (ts ++ leftParen :: us ++ [rightParen]) (.call e rightParen.mark es)
      (errors ++ errors') := by
  obtain ⟨t, rest, rfl, ht, -⟩ := hus.first
  have hstarts : ∀ kind ∈ starts, kind ≠ .rightParen := by decide
  exact hcallee.call hleft (fun d => .listing (hstarts _ ht) (harguments es rfl d)) hright

/-! ### Expressions without operators -/

theorem ReadThrough.literal {j : Json} (h : literal? t = some j) :
    ReadThrough k .primary [t] (.literal j) [] := by
  intro d s next hsees _ _ _
  rw [primary_of_literal (by rw [hsees.current, h]), past_nil]
  rfl

theorem ReadThrough.reference (hname : name.kind = .identifier) :
    ReadThrough k .primary [name] (.reference name.mark) [] := by
  intro d s next hsees _ _ _
  rw [primary_of_name (by rw [hsees.current, hname]), hsees.current, past_nil]
  rfl

theorem primary_grouping {s : Reading} (h : s.cursor.current.kind = .leftParen) :
    primary expression s = (do
      let _ ← advance
      let inner ← expression
      let _ ← expect .rightParen .parenAfterExpression
      return Node.grouping inner) s := by
  rw [primary, peek_bind, h]

theorem ReadThrough.grouping (hleft : leftParen.kind = .leftParen)
    (h : ReadThrough (k + 1) .expression ts e errors) (hright : rightParen.kind = .rightParen) :
    ReadThrough k .primary (leftParen :: ts ++ [rightParen]) (.grouping e) errors := by
  intro d
  exact .of_first (fun _ _ ht => primary_grouping (ht ▸ hleft))
    (.advance ((h d).upToLast hright (by decide)))

/-! ### Assignments -/

theorem ReadThrough.ofName (hname : name.kind = .identifier) (ls : List Level) :
    ReadThrough k (.chain ls) [name] (.reference name.mark) [] := by
  induction ls with
  | nil =>
    refine ReadThrough.called (.uncalled (.reference hname)) ⟨name, [], rfl, ?_⟩
    rw [hname]
    decide
  | cons level ls ih => exact ih.tighter

/-- What is found after the value of an assignment. -/
def assigned (target : Node) (equals : Token) (index : Nat) (value : Node) : Reader Node :=
  match target with
  | .reference m => pure (.assign m value)
  | _ => report equals index .assignmentTarget >>= fun _ => pure target

theorem assigned_of_other (h : ∀ m, e ≠ .reference m) (equals : Token) (index : Nat)
    (value : Node) :
    assigned e equals index value = report equals index .assignmentTarget >>= fun _ => pure e := by
  rw [assigned]
  exact h

theorem assignment_eq (expression unary : Reader Node) : assignment expression unary
    = operands levels unary >>= fun target => check [.equal] >>= fun b =>
      if b then do
        let index ← position
        let equals ← advance
        let value ← expression
        assigned target equals index value
      else pure target := rfl

theorem ReadThrough.disjunction (h : ReadThrough k (.chain levels) ts e errors) :
    ReadThrough k .expression ts e errors := by
  intro d
  have hequal : ∀ kind, kind ∉ Kind.equal :: continuing levels →
      [Kind.equal].contains (firstKind [] kind) = false := by
    simpa [firstKind] using fun _ hkind _ => hkind
  refine .of_eq (fun _ hs => expression_eq hs) ?_
  rw [assignment_eq]
  exact ((h.operands (List.suffix_refl _)).map _).stop (.check false hequal (.refl _))
    fun _ hkind hmem => hkind (List.mem_cons_of_mem _ hmem)

theorem ReadThrough.assignment (hname : name.kind = .identifier) (hequal : equal.kind = .equal)
    (h : ReadThrough (k + 2) .expression ts e errors) :
    ReadThrough k .expression (name :: equal :: ts) (.assign name.mark e) errors := by
  intro d
  -- The name is read as an operand first, and turned into a target at the equal sign.
  have htarget : Leads d k [name] [] (· ∉ continuing levels) (Reader.operands levels unary)
      (pure (.reference name.mark)) :=
    (ReadThrough.ofName hname levels).operands (List.suffix_refl _)
  have hstop : equal.kind ∉ continuing levels := by
    rw [hequal]
    decide
  refine .of_eq (fun _ hs => expression_eq hs) ?_
  rw [assignment_eq]
  exact htarget.seq (.check true (by simp [firstKind, hequal])
    (.position (.advance ((h d).map _)))) fun _ _ => hstop

theorem ReadThrough.invalidAssignment (htarget : ReadThrough k (.chain levels) ts e errors)
    (hother : ∀ m, e ≠ .reference m) (hequal : equal.kind = .equal)
    (h : ReadThrough (k + ts.length + 1) .expression us f errors') :
    ReadThrough k .expression (ts ++ equal :: us) e
      (errors ++ errors' ++ [⟨equal, k + ts.length, .assignmentTarget⟩]) := by
  intro d
  have hstop : equal.kind ∉ continuing levels := by
    rw [hequal]
    decide
  have hreport : Leads d (k + ts.length + 1 + us.length) []
      [⟨equal, k + ts.length, .assignmentTarget⟩] (· ∉ Kind.equal :: continuing levels)
      (assigned e equal (k + ts.length) f) (pure e) := by
    rw [assigned_of_other hother]
    exact .report (.refl _)
  have hvalue := ((h d).map (assigned e equal (k + ts.length))).andThen hreport
    fun _ hkind => hkind
  refine .of_eq (fun _ hs => expression_eq hs) ?_
  rw [assignment_eq, List.append_assoc]
  exact (htarget.operands (List.suffix_refl _)).seq (.check true (by simp [firstKind, hequal])
    (.position (.advance hvalue))) fun _ _ => hstop

/-- Every lenient expression is read through. -/
theorem readThrough {tier : Lenient.Tier} (h : Lenient.Expression k tier ts e errors) :
    ReadThrough k tier ts e errors := by
  induction h with
  | assignment hname hequal _ ih => exact .assignment hname hequal ih
  | invalidAssignment htarget hother hequal _ iht ihv =>
    refine .invalidAssignment iht ?_ hequal ihv
    rintro m rfl
    obtain ⟨name, hname, hts⟩ := htarget.eq_reference
    exact hother name hname hts
  | disjunction _ ih => exact .disjunction ih
  | operator _ hop _ ihl ihr => exact .operator ihl hop ihr
  | tighter _ ih => exact .tighter ih
  | operand _ ih => exact ih
  | prefixed hop _ ih => exact .prefixed hop ih
  | called h ih =>
    obtain ⟨t, rest, rfl, -, ht⟩ := h.first
    exact .called ih ⟨t, rest, rfl, ht (.inl rfl)⟩
  | callWithout _ hleft hright ih => exact .callWithout ih hleft hright
  | callWith _ hleft harguments hright ihc iha => exact .callWith ihc hleft harguments iha hright
  | uncalled _ ih => exact .uncalled ih
  | literal hj => exact .literal hj
  | reference hname => exact .reference hname
  | grouping hleft _ hright ih => exact .grouping hleft ih hright
  | lastArgument _ ih => exact .lastArgument ih
  | argument _ hcomma _ ih ihr => exact .argument ih hcomma ihr

/-- A lenient expression is read if nothing goes on with it. -/
theorem expression_leads (h : Lenient.Expression k .expression ts e errors) :
    Leads d k ts errors (· ∉ Kind.equal :: continuing levels) expression (pure e) :=
  readThrough h d

end Reader

end LoxLang
