/-
What comes of reading up to a semicolon, whatever lies in front of it.

Where there is no brace in front of the semicolon, no `for`, and no word that begins a statement
but at the front, reading ends right after the semicolon.  Where no fault is found the semicolon
is the last token of the statement, and a fault is found no later than at the semicolon, so that
reading goes on after it.  Neither depends on what comes then, if only this is no `else`.

* `Reader.Finishes` — the reader passes the semicolon, or gives up at it or in front of it;
* `Reader.declarationStep_finishes` — so do the readers of statements;
* `Reader.lost_of_plain` — after a fault, reading goes on after the semicolon;
* `Reader.declaration_contained` — both together.
-/
import LoxLang.Proofs.Reader.Settling
import LoxLang.Proofs.Reader.StatementLeading

namespace LoxLang

namespace Reader

open Grammar Reading

variable {α β : Type} {semicolon t : Token} {ts : List Token} {p q : Reader α} {e : Node}
  {fault : SyntaxFault}

/-! ### Up to the semicolon -/

/-- With these tokens ahead and then this semicolon, the reader does the same wherever it is: it
passes all of them and the semicolon, and finds something, or gives up at one of them. -/
inductive Finishes (semicolon : Token) (p : Reader α) (ts : List Token) : Prop where
  | found (a : α) (faults : List SyntaxError)
      (h : ∀ s : Reading, s.Before ts semicolon →
        p s = (pure a : Reader α) (s.along (ts ++ [semicolon]) faults))
  | failed (fault : SyntaxFault) (us vs : List Token) (faults : List SyntaxError)
      (hts : ts = us ++ vs)
      (h : ∀ s : Reading, s.Before ts semicolon → p s = fail fault (s.along us faults))

namespace Finishes

theorem of_before (hp : ∀ s : Reading, s.Before ts semicolon → p s = q s)
    (h : Finishes semicolon q ts) : Finishes semicolon p ts := by
  cases h with
  | found a faults h => exact .found a faults fun s hs => (hp s hs).trans (h s hs)
  | failed fault us vs faults hts h =>
    exact .failed fault us vs faults hts fun s hs => (hp s hs).trans (h s hs)

/-- A reader that goes on as another one, after some tokens and errors. -/
theorem after {us vs : List Token} {faults : List SyntaxError}
    (hp : ∀ s : Reading, s.Before (us ++ vs) semicolon → p s = q (s.along us faults))
    (h : Finishes semicolon q vs) : Finishes semicolon p (us ++ vs) := by
  cases h with
  | found a faults' h =>
    refine .found a (faults ++ faults'.map (·.after us.length)) fun s hs => ?_
    obtain ⟨next, hsees⟩ := hs.part
    rw [hp s hs, h _ (hs.along faults), along_along hsees, List.append_assoc]
  | failed fault us' vs' faults' hvs h =>
    refine .failed fault (us ++ us') vs' (faults ++ faults'.map (·.after us.length))
      (by rw [hvs, List.append_assoc]) fun s hs => ?_
    obtain ⟨next, hsees⟩ := hs.part
    rw [hp s hs, h _ (hs.along faults), along_along hsees]

/-- A reader that goes on as another one after the first token. -/
theorem after_first (hp : ∀ s : Reading, s.Before (t :: ts) semicolon → p s = q (s.skip 1))
    (h : Finishes semicolon q ts) : Finishes semicolon p (t :: ts) := by
  have hfirst (s : Reading) (hs : s.Before ([t] ++ ts) semicolon) :
      p s = q (s.along [t] []) := by
    rw [hp s hs, along, List.map_nil, past_nil]
    rfl
  exact after hfirst h

/-- A reader that settles, and one after it that passes the semicolon. -/
theorem bind {f : α → Reader β} (hp : Settles semicolon p ts)
    (hf : ∀ a vs, vs <:+ ts → Finishes semicolon (f a) vs) : Finishes semicolon (p >>= f) ts := by
  cases hp with
  | found a us vs faults hts h =>
    subst hts
    have hfirst (s : Reading) (hs : s.Before (us ++ vs) semicolon) :
        (p >>= f) s = f a (s.along us faults) := bind_of_ok (h s hs)
    exact after hfirst (hf a vs (List.suffix_append us vs))
  | failed fault us vs faults hts h =>
    exact .failed fault us vs faults hts fun s hs => bind_of_failed (h s hs)

/-- A reader that passes the semicolon, and one after it that does nothing, as there is no
`else`. -/
theorem map {f : α → Reader β} {g : α → β} (hp : Finishes semicolon p ts)
    (hf : ∀ a s, s.cursor.current.kind ≠ .elseWord → f a s = (pure (g a) : Reader β) s) :
    Finishes semicolon (p >>= f) ts := by
  cases hp with
  | found a faults h =>
    refine .found (g a) faults fun s hs => (bind_of_ok (h s hs)).trans (hf a _ ?_)
    obtain ⟨next, hsees, hnext⟩ := hs.sees
    -- The token after the semicolon is the one that may be no `else`.
    have hsees' : s.Sees (ts ++ [semicolon] ++ []) next := by rwa [List.append_nil]
    have hcurrent := (hsees'.past (faults.map (·.after s.cursor.index))).current_of_nil
    rwa [along, hcurrent]
  | failed fault us vs faults hts h =>
    exact .failed fault us vs faults hts fun s hs => bind_of_failed (h s hs)

/-- A token that is expected and is not there. -/
theorem expect_fails {kind : Kind} (f : Token → Reader β)
    (h : (ts.headD semicolon).kind ≠ kind) :
    Finishes semicolon (Reader.expect kind fault >>= f) ts :=
  .failed fault [] ts [] rfl fun s hs => by
    rw [along_nil, expect_bind, hs.current, if_neg h, fail_apply]

/-- What is left of a statement in front of its semicolon. -/
theorem ending (hsemicolon : semicolon.kind = .semicolon) (hts : ∀ t ∈ ts, t.kind ≠ .semicolon) :
    Finishes semicolon (Reader.ending fault e) ts := by
  cases ts with
  | cons t ts => exact expect_fails _ (hts t List.mem_cons_self)
  | nil =>
    refine .found e [] fun s hs => ?_
    have hcurrent : s.cursor.current.kind = .semicolon := by rwa [hs.current]
    rw [Reader.ending, expect_bind, if_pos hcurrent, along, List.map_nil, past_nil]
    rfl

end Finishes

/-! ### Statements -/

section

variable (hsemicolon : semicolon.kind = .semicolon)

include hsemicolon

/-- A token that is expected. -/
theorem expect_settles {kind : Kind} (hkind : kind ≠ .semicolon) (fault : SyntaxFault)
    (ts : List Token) : Settles semicolon (expect kind fault) ts := by
  rw [← bind_pure (expect kind fault)]
  exact .expect (by rw [hsemicolon]; exact hkind.symm) fun t us _ => .pure t us

theorem parenthesized_settles (before after : SyntaxFault) (ts : List Token) :
    Settles semicolon (parenthesized before after) ts :=
  .bind (expect_settles hsemicolon (by decide) _ _) fun _ us _ =>
    .bind (expression_settled hsemicolon us) fun _ vs _ =>
      .bind (expect_settles hsemicolon (by decide) _ vs) fun _ ws _ => .pure _ ws

variable (hts : ∀ t ∈ ts, t.kind ≠ .semicolon)

include hts

theorem expressionStatement_finishes : Finishes semicolon expressionStatement ts :=
  .bind (expression_settled hsemicolon ts) fun _ _ hvs =>
    .ending hsemicolon fun t ht => hts t (hvs.subset ht)

theorem printFrom_finishes : Finishes semicolon printFrom ts :=
  .bind (expression_settled hsemicolon ts) fun _ _ hvs =>
    .ending hsemicolon fun t ht => hts t (hvs.subset ht)

theorem variableFrom_finishes : Finishes semicolon variableFrom ts := by
  have hequal : semicolon.kind ≠ .equal := by
    rw [hsemicolon]
    decide
  rw [variableFrom_eq]
  refine .bind (expect_settles hsemicolon (by decide) _ ts) fun name us hus => ?_
  have hinitializer : Settles semicolon (orMissing .equal expression) us :=
    .accept hequal (fun _ vs _ => expression_settled hsemicolon vs) (.pure _ us)
  exact .bind hinitializer fun _ _ hvs =>
    .ending hsemicolon fun t ht => hts t (hus.subset (hvs.subset ht))

theorem returnFrom_finishes (word : Token) : Finishes semicolon (returnFrom word) ts := by
  have hvalue : Settles semicolon (optionalBefore .semicolon) ts :=
    .check _ (fun _ => .pure _ ts) (expression_settled hsemicolon ts)
  exact .bind hvalue fun _ _ hvs => .ending hsemicolon fun t ht => hts t (hvs.subset ht)

/-- Outside every function body a `return` is read on after an error. -/
theorem returnStatement_finishes (word : Token) :
    Finishes semicolon returnStatement (word :: ts) := by
  have hfirst (s : Reading) (hs : s.Before ([word] ++ ts) semicolon) :
      returnStatement s = returnFrom word (s.along [word] [⟨word, 0, .topLevelReturn⟩]) := by
    have hcurrent : s.cursor.current = word := hs.current
    rw [returnStatement_apply, if_pos hs.depth, hcurrent, recorded_eq_past, ← past_nil, past_past]
    rfl
  exact .after hfirst (returnFrom_finishes hsemicolon hts word)

end

/-- The kinds of token with which a block, or a statement that has a word at its front, begins. -/
def statementFronts : List Kind :=
  [.printWord, .ifWord, .whileWord, .forWord, .returnWord, .leftBrace]

theorem statementStep_of_other {s : Reading} (h : s.cursor.current.kind ∉ statementFronts) :
    statementStep declaration statement s = expressionStatement s := by
  rw [statementStep, peek_bind]
  cases hkind : s.cursor.current.kind with
  | printWord | ifWord | whileWord | forWord | returnWord | leftBrace =>
    exact absurd (by rw [hkind]; decide) h
  | _ => rfl

theorem declarationStep_of_other {s : Reading}
    (h : s.cursor.current.kind ∉ [Kind.funWord, .varWord]) :
    declarationStep declaration statement s = statement s := by
  simp only [List.mem_cons, List.not_mem_nil, or_false, not_or] at h
  rw [declarationStep, accept_bind, if_neg h.1, if_neg Bool.false_ne_true, accept_bind,
    if_neg h.2, if_neg Bool.false_ne_true]

/-- Tokens of which none is a semicolon, a brace or a word that begins a statement. -/
def Plain (ts : List Token) : Prop :=
  ∀ t ∈ ts, t.kind ∉ [.semicolon, .leftBrace, .rightBrace] ++ statementWords

namespace Plain

theorem ne_semicolon (h : Plain ts) : ∀ t ∈ ts, t.kind ≠ .semicolon :=
  fun t ht heq => h t ht (by rw [heq]; decide)

theorem of_suffix {us : List Token} (h : Plain ts) (hus : us <:+ ts) : Plain us :=
  fun t ht => h t (hus.subset ht)

/-- Neither one of these tokens nor the semicolon after them is of a kind that they cannot have. -/
theorem headD_not_mem (h : Plain ts) (hsemicolon : semicolon.kind = .semicolon)
    (kinds : List Kind) (hkinds : Kind.semicolon ∉ kinds)
    (hsub : kinds ⊆ [.semicolon, .leftBrace, .rightBrace] ++ statementWords) :
    (ts.headD semicolon).kind ∉ kinds := by
  cases ts with
  | nil => rwa [List.headD_nil, hsemicolon]
  | cons t ts => exact fun hmem => h t List.mem_cons_self (hsub hmem)

end Plain

section

variable (hsemicolon : semicolon.kind = .semicolon) (hts : Plain ts)

include hsemicolon hts

/-- Without a word at its front, what lies in front of the semicolon is read as an expression. -/
theorem statement_finishes : Finishes semicolon statement ts := by
  have hfront := hts.headD_not_mem hsemicolon statementFronts (by decide) (by decide)
  refine (expressionStatement_finishes hsemicolon hts.ne_semicolon).of_before fun s hs => ?_
  rw [statement_eq hs.ends, statementStep_of_other (by rwa [hs.current])]

theorem ifFrom_finishes : Finishes semicolon (ifFrom statement) ts := by
  rw [ifFrom_eq]
  refine .bind (parenthesized_settles hsemicolon _ _ ts) fun e us hus => ?_
  have hbranch := statement_finishes hsemicolon (hts.of_suffix hus)
  refine hbranch.map (g := fun f => .branch e f .missing) fun f s hs => ?_
  have hnone : orMissing .elseWord statement s = .ok .missing s := by
    rw [orMissing_apply, if_neg hs]
  exact bind_of_ok hnone

theorem whileFrom_finishes : Finishes semicolon (whileFrom statement) ts := by
  rw [whileFrom_eq]
  refine .bind (parenthesized_settles hsemicolon _ _ ts) fun e us hus => ?_
  exact (statement_finishes hsemicolon (hts.of_suffix hus)).map fun f s _ => rfl

/-- There is no brace that would open the body of a function. -/
theorem function_finishes : Finishes semicolon (function declaration) ts := by
  have hparameter (n : Nat) : SettlesBelow semicolon n parameter := fun us _ =>
    .bind (expect_settles hsemicolon (by decide) _ us) fun t vs _ => .pure t.mark vs
  refine .bind (expect_settles hsemicolon (by decide) _ ts) fun name us hus => ?_
  refine .bind (expect_settles hsemicolon (by decide) _ us) fun _ vs hvs => ?_
  have hparameters := listing_settles hsemicolon (hparameter (vs.length + 1))
    (fun count _ hs => parameters_eq count hs) vs (Nat.lt_succ_self _)
  refine .bind hparameters fun params ws hws => ?_
  refine .bind (expect_settles hsemicolon (by decide) _ ws) fun _ xs hxs => .expect_fails _ ?_
  have hplain := hts.of_suffix (((hxs.trans hws).trans hvs).trans hus)
  simpa using hplain.headD_not_mem hsemicolon [.leftBrace] (by decide) (by decide)

end

/-- What stands in front of a semicolon, with one word at its front at most. -/
theorem declarationStep_finishes (hsemicolon : semicolon.kind = .semicolon) (hts : Plain ts.tail)
    (hfirst : ∀ t ∈ ts.head?, t.kind ∉ [Kind.semicolon, .leftBrace, .forWord]) :
    Finishes semicolon (declarationStep declaration statement) ts := by
  cases ts with
  | nil =>
    refine (statement_finishes hsemicolon hts).of_before fun s hs => declarationStep_of_other ?_
    rw [hs.current, List.headD_nil, hsemicolon]
    decide
  | cons t ts =>
    have hplain : ∀ u ∈ ts, u.kind ≠ .semicolon := hts.ne_semicolon
    have hhere : t.kind ∉ [Kind.semicolon, .leftBrace, .forWord] := hfirst t rfl
    have hcurrent (s : Reading) (hs : s.Before (t :: ts) semicolon) : s.cursor.current = t :=
      hs.current
    have hother (kind : Kind) (hkind : t.kind = kind) (hkinds : kind ∉ [Kind.funWord, .varWord])
        (s : Reading) (hs : s.Before (t :: ts) semicolon) :
        declarationStep declaration statement s = statementStep declaration statement s := by
      rw [declarationStep_of_other (by rwa [hcurrent s hs, hkind]), statement_eq hs.ends]
    cases hkind : t.kind with
    | semicolon | leftBrace | forWord => exact absurd (by rw [hkind]; decide) hhere
    | funWord =>
      exact .after_first (fun s hs => declarationStep_of_function (by rwa [hcurrent s hs]))
        (function_finishes hsemicolon hts)
    | varWord =>
      exact .after_first (fun s hs => declarationStep_of_variable (by rwa [hcurrent s hs]))
        (variableFrom_finishes hsemicolon hplain)
    | printWord =>
      exact .after_first (fun s hs => (hother _ hkind (by decide) s hs).trans
        (statementStep_of_print (by rwa [hcurrent s hs]))) (printFrom_finishes hsemicolon hplain)
    | ifWord =>
      exact .after_first (fun s hs => (hother _ hkind (by decide) s hs).trans
        (statementStep_of_if (by rwa [hcurrent s hs]))) (ifFrom_finishes hsemicolon hts)
    | whileWord =>
      exact .after_first (fun s hs => (hother _ hkind (by decide) s hs).trans
        (statementStep_of_while (by rwa [hcurrent s hs]))) (whileFrom_finishes hsemicolon hts)
    | returnWord =>
      exact .of_before (fun s hs => (hother _ hkind (by decide) s hs).trans
        (statementStep_of_return (by rwa [hcurrent s hs])))
        (returnStatement_finishes hsemicolon hplain t)
    | _ =>
      -- Every other token begins an expression, or no statement at all.
      refine .of_before (fun s hs => (hother _ hkind (by decide) s hs).trans
        (statementStep_of_other ?_)) (expressionStatement_finishes hsemicolon ?_)
      · rw [hcurrent s hs, hkind]
        decide
      · exact List.forall_mem_cons.mpr ⟨by rw [hkind]; decide, hplain⟩

/-! ### After a fault -/

/-- All that is left in front of the semicolon is lost after a fault, and the semicolon too. -/
theorem lost_of_plain (hsemicolon : semicolon.kind = .semicolon)
    (hts : ∀ t ∈ ts, t.kind ≠ .semicolon) (htail : Plain ts.tail) (next : Kind) :
    Lost (ts ++ [semicolon]) next where
  inside t ht := hts t (by rwa [List.dropLast_concat] at ht)
  words := by
    have hword : semicolon.kind ∉ statementWords := by
      rw [hsemicolon]
      decide
    cases ts with
    | nil => simp
    | cons t ts =>
      rw [List.cons_append, List.tail_cons, List.forall_mem_append]
      exact ⟨fun u hu hmem => htail u hu (List.mem_append_right _ hmem), by simpa using hword⟩
  ends := .inl ⟨semicolon, by simp, hsemicolon⟩

/-- The state in which a reader has given up in front of a semicolon. -/
theorem recorded_fault {s : Reading} {us vs : List Token} (hs : s.Before (us ++ vs) semicolon)
    (faults : List SyntaxError) (fault : SyntaxFault) :
    recorded (s.along us faults) (faultHere (s.along us faults) fault)
      = s.along us (faults ++ [⟨vs.headD semicolon, us.length, fault⟩]) := by
  obtain ⟨next, hsees⟩ := hs.part
  have hcurrent := (hs.along faults).current
  have hindex : (s.along us faults).cursor.index = s.cursor.index + us.length := hsees.index
  rw [← recorded_along, faultHere, hcurrent, hindex]
  rfl

/-- What is read in front of a semicolon, and passed with it, is the same everywhere. -/
theorem declaration_contained (hsemicolon : semicolon.kind = .semicolon)
    (hts : ∀ t ∈ ts, t.kind ≠ .semicolon) (htail : Plain ts.tail)
    (hfirst : ∀ t ∈ ts.head?, t.kind ∉ [Kind.semicolon, .leftBrace, .forWord]) :
    ∃ (found : Option Node) (faults : List SyntaxError), ∀ s : Reading, s.Before ts semicolon →
      declaration s = (pure found : Reader _) (s.along (ts ++ [semicolon]) faults) := by
  cases declarationStep_finishes hsemicolon htail hfirst with
  | found e faults h =>
    refine ⟨some e, faults, fun s hs => ?_⟩
    rw [declaration_eq hs.ends, recovering, h s hs]
    rfl
  | failed fault us vs faults hus h =>
    subst hus
    have hvs : Plain vs.tail := by
      cases us with
      | nil => exact htail
      | cons u us => exact htail.of_suffix ((List.tail_suffix vs).trans (List.suffix_append us vs))
    -- The blamed token is the one at which the declaration is given up.
    refine ⟨none, faults ++ [⟨vs.headD semicolon, us.length, fault⟩], fun s hs => ?_⟩
    obtain ⟨next, hsees, -⟩ :=
      (hs.along (faults ++ [⟨vs.headD semicolon, us.length, fault⟩])).sees
    have hresume := (lost_of_plain hsemicolon (fun t ht => hts t (List.mem_append_right us ht)) hvs
      next.kind).resume hsees
    rw [declaration_eq hs.ends, recovering, h s hs, fail_apply, recorded_fault hs]
    simp only [hresume]
    have hlength : (us ++ vs ++ [semicolon]).length = us.length + (vs ++ [semicolon]).length := by
      rw [List.append_assoc, List.length_append]
    rw [← past_nil, along, past_past, along, List.append_nil, hlength]
    rfl

end Reader

end LoxLang
