/-
Two lists of tokens that are read side by side.

Readers look at the kinds and the texts of tokens only, and not at the places where they stand.  So
tokens that are taken for each other (`Likeness`) are read in the same way: the same things are
done at the same time, with trees and errors that are alike.

* `Reader.Like.bind`, `Reader.Like.check`, ... — one rule for each way to put readers together, and
  for each of the basic ones;
* `Reader.statements_upTo_like` — declarations and statements, by induction on the bound;
* `Program.ofTokens_like` — whole programs, with errors or without.
-/
import LoxLang.Program
import LoxLang.Proofs.Tree.Likeness

namespace LoxLang

variable {L : Likeness}

/-! ### States and replies -/

/-- Two places in lists of tokens that are taken for each other. -/
structure Cursor.Like (L : Likeness) (c d : Cursor) : Prop where
  previous : Option.Rel L.tokens c.previous d.previous
  current : L.tokens c.current d.current
  upcoming : List.Forall₂ L.tokens c.upcoming d.upcoming
  index : c.index = d.index

/-- The same fault, at tokens that are taken for each other. -/
structure SyntaxError.Like (L : Likeness) (e f : SyntaxError) : Prop where
  token : L.tokens e.token f.token
  index : e.index = f.index
  fault : e.fault = f.fault

/-- Two states of reading that are alike. -/
structure Reading.Like (L : Likeness) (s s' : Reading) : Prop where
  cursor : s.cursor.Like L s'.cursor
  errors : List.Forall₂ (SyntaxError.Like L) s.errors s'.errors
  heard : List.Forall₂ (SyntaxError.Like L) s.heard s'.heard
  depth : s.depth = s'.depth

/-- Two replies of the same sort, in states that are alike. -/
inductive Reply.Like (L : Likeness) {α β : Type} (results : α → β → Prop) :
    Reply α → Reply β → Prop where
  | ok {a : α} {b : β} {s s' : Reading} (hresults : results a b) (hs : s.Like L s') :
      Like L results (.ok a s) (.ok b s')
  | failed {s s' : Reading} (hs : s.Like L s') : Like L results (.failed s) (.failed s')
  | stuck : Like L results .stuck .stuck

/-- Two readers whose replies are alike in states that are. -/
def Reader.Like (L : Likeness) {α β : Type} (results : α → β → Prop) (p : Reader α)
    (q : Reader β) : Prop :=
  ∀ s s', s.Like L s' → Reply.Like L results (p s) (q s')

namespace Cursor.Like

variable {c d : Cursor}

theorem kind_eq (h : c.Like L d) : c.current.kind = d.current.kind :=
  (L.sameText h.current).kind

theorem isAtEnd_eq (h : c.Like L d) : c.isAtEnd = d.isAtEnd := by
  rw [isAtEnd, isAtEnd, h.kind_eq]

theorem check_eq (h : c.Like L d) (kinds : List Kind) : c.check kinds = d.check kinds := by
  rw [check, check, h.kind_eq]

theorem next (h : c.Like L d) : c.next.Like L d.next := by
  rw [Cursor.next, Cursor.next, h.isAtEnd_eq]
  split
  · exact h
  · have hupcoming := h.upcoming
    generalize c.upcoming = ts, d.upcoming = us at hupcoming ⊢
    cases hupcoming with
    | nil => exact { h with previous := .some h.current, upcoming := .nil }
    | cons htu hrest => exact ⟨.some h.current, htu, hrest, congrArg (· + 1) h.index⟩

end Cursor.Like

theorem Reading.Like.bound_eq {s s' : Reading} (h : s.Like L s') : s.bound = s'.bound := by
  rw [bound, bound, h.cursor.upcoming.length_eq]

namespace Reader

variable {α β γ δ : Type} {results : α → β → Prop} {middle : γ → δ → Prop}

/-! ### Basic readers -/

namespace Like

theorem pure {a : α} {b : β} (h : results a b) : Like L results (Pure.pure a) (Pure.pure b) :=
  fun _ _ hs => .ok h hs

theorem bind {p : Reader γ} {q : Reader δ} {f : γ → Reader α} {g : δ → Reader β}
    (hpq : Like L middle p q) (hfg : ∀ c d, middle c d → Like L results (f c) (g d)) :
    Like L results (p >>= f) (q >>= g) := by
  intro s s' hs
  have h := hpq s s' hs
  dsimp only [Bind.bind]
  generalize p s = r, q s' = r' at h ⊢
  cases h with
  | ok hresults hs => exact hfg _ _ hresults _ _ hs
  | failed hs => exact .failed hs
  | stuck => exact .stuck

/-- One reader after another whose result does not matter. -/
theorem seq {p : Reader γ} {q : Reader δ} {f : γ → Reader α} {g : δ → Reader β}
    (hpq : Like L middle p q) (hfg : ∀ c d, Like L results (f c) (g d)) :
    Like L results (p >>= f) (q >>= g) :=
  hpq.bind fun c d _ => hfg c d

/-- A reader that asks a question, which has the same answer on both sides. -/
theorem ask {p q : Reader Bool} {yes no : Reader α} {yes' no' : Reader β}
    (hpq : Like L (· = ·) p q) (hyes : Like L results yes yes') (hno : Like L results no no') :
    Like L results (p >>= fun b => if b then yes else no)
      (q >>= fun b => if b then yes' else no') := by
  refine hpq.bind fun b b' hb => ?_
  obtain rfl : b = b' := hb
  split
  · exact hyes
  · exact hno

theorem stuck : Like L results stuck stuck := fun _ _ _ => .stuck

theorem peek : Like L L.tokens peek peek := fun _ _ hs => .ok hs.cursor.current hs

theorem position : Like L (· = ·) position position := fun _ _ hs => .ok hs.cursor.index hs

theorem atEnd : Like L (· = ·) atEnd atEnd := fun _ _ hs => .ok hs.cursor.isAtEnd_eq hs

theorem check (kinds : List Kind) : Like L (· = ·) (check kinds) (check kinds) :=
  fun _ _ hs => .ok (hs.cursor.check_eq kinds) hs

theorem advance : Like L L.tokens advance advance :=
  fun _ _ hs => .ok hs.cursor.current { hs with cursor := hs.cursor.next }

theorem report {t u : Token} (htu : L.tokens t u) (index : Nat) (fault : SyntaxFault) :
    Like L (fun _ _ => True) (report t index fault) (report u index fault) := by
  intro s s' hs
  have herror : SyntaxError.Like L ⟨t, index, fault⟩ ⟨u, index, fault⟩ := ⟨htu, rfl, rfl⟩
  have hrecorded {es fs : List SyntaxError} (h : List.Forall₂ (SyntaxError.Like L) es fs) :
      List.Forall₂ (SyntaxError.Like L) (es ++ [⟨t, index, fault⟩]) (fs ++ [⟨u, index, fault⟩]) :=
    List.rel_append h (.cons herror .nil)
  exact .ok trivial { hs with errors := hrecorded hs.errors, heard := hrecorded hs.heard }

theorem reportHere (fault : SyntaxFault) :
    Like L (fun _ _ => True) (reportHere fault) (reportHere fault) := by
  intro s s' hs
  rw [Reader.reportHere, Reader.reportHere, hs.cursor.index]
  exact report hs.cursor.current _ fault s s' hs

theorem giveUp : Like L results giveUp giveUp := fun _ _ hs => .failed hs

theorem fail (fault : SyntaxFault) : Like L results (fail fault) (fail fault) :=
  .seq (reportHere fault) fun _ _ => giveUp

/-- The token that is moved past is of the kind that is asked for. -/
theorem expect (kind : Kind) (fault : SyntaxFault) :
    Like L (fun t u => L.tokens t u ∧ t.kind = kind) (expect kind fault) (expect kind fault) := by
  intro s s' hs
  show Reply.Like L _ ((if s.cursor.check [kind] then Reader.advance else Reader.fail fault) s)
    ((if s'.cursor.check [kind] then Reader.advance else Reader.fail fault) s')
  rw [← hs.cursor.check_eq]
  split
  · rename_i hkind
    refine .ok ⟨hs.cursor.current, ?_⟩ { hs with cursor := hs.cursor.next }
    simpa [Cursor.check] using hkind
  · exact fail fault s s' hs

theorem accept (kind : Kind) : Like L (· = ·) (accept kind) (accept kind) :=
  .ask (check [kind]) (.seq advance fun _ _ => .pure rfl) (.pure rfl)

theorem bounded {p : Nat → Reader α} {q : Nat → Reader β} (h : ∀ n, Like L results (p n) (q n)) :
    Like L results (bounded p) (bounded q) := by
  intro s s' hs
  rw [Reader.bounded, Reader.bounded, hs.bound_eq]
  exact h _ s s' hs

end Like

theorem separated_like {part : Reader α} {part' : Reader β} (hpart : Like L results part part')
    (tooMany : SyntaxFault) (n count : Nat) :
    Like L (List.Forall₂ results) (separated part tooMany n count)
      (separated part' tooMany n count) := by
  induction n generalizing count with
  | zero => exact .stuck
  | succ n ih =>
    have rest : Like L (List.Forall₂ results)
        (part >>= fun a => accept .comma >>= fun more =>
          if more then separated part tooMany n (count + 1) >>= fun as => pure (a :: as)
          else pure [a])
        (part' >>= fun b => accept .comma >>= fun more =>
          if more then separated part' tooMany n (count + 1) >>= fun bs => pure (b :: bs)
          else pure [b]) := by
      refine .bind hpart fun a b hab => .ask (.accept .comma) ?_ (.pure (.cons hab .nil))
      exact .bind (ih _) fun as bs hs => .pure (.cons hab hs)
    rw [separated, separated]
    split
    · exact .seq (.reportHere tooMany) fun _ _ => rest
    · exact rest

theorem listing_like {part : Reader α} {part' : Reader β} (hpart : Like L results part part')
    (tooMany : SyntaxFault) :
    Like L (List.Forall₂ results) (listing part tooMany) (listing part' tooMany) :=
  .ask (.check [.rightParen]) (.pure .nil) (.bounded fun n => separated_like hpart tooMany n 0)

/-! ### Expressions -/

/-- An operator makes trees that are alike of trees that are. -/
def BuildsLike (L : Likeness) (build : Node → Mark → Node → Node) : Prop :=
  ∀ e f m n e' f', Node.Like L e f → L.marks m n → Node.Like L e' f' →
    Node.Like L (build e m e') (build f n f')

theorem binary_builds : BuildsLike L .binary := fun _ _ _ _ _ _ he hm he' => .binary he hm he'

theorem logical_builds : BuildsLike L .logical := fun _ _ _ _ _ _ he hm he' => .logical he hm he'

section

variable {expression expression' unary unary' operand operand' : Reader Node}
  {build : Node → Mark → Node → Node}

theorem chainFrom_like (hoperand : Like L (Node.Like L) operand operand') (kinds : List Kind)
    (hbuild : BuildsLike L build) (n : Nat) {e f : Node} (hef : Node.Like L e f) :
    Like L (Node.Like L) (chainFrom operand kinds build n e)
      (chainFrom operand' kinds build n f) := by
  induction n generalizing e f with
  | zero => exact .stuck
  | succ n ih =>
    refine .ask (.check kinds) (.bind .advance fun op op' hop => ?_) (.pure hef)
    refine .bind hoperand fun right right' hright => ih ?_
    exact hbuild _ _ _ _ _ _ hef (Likeness.marks_of_tokens hop) hright

theorem chain_like (hoperand : Like L (Node.Like L) operand operand') (kinds : List Kind)
    (hbuild : BuildsLike L build) :
    Like L (Node.Like L) (chain operand kinds build) (chain operand' kinds build) :=
  .bind hoperand fun _ _ h => .bounded fun n => chainFrom_like hoperand kinds hbuild n h

theorem disjunction_like (hunary : Like L (Node.Like L) unary unary') :
    Like L (Node.Like L) (disjunction unary) (disjunction unary') := by
  have hproduct := chain_like hunary [.slash, .star] binary_builds
  have hsum := chain_like hproduct [.minus, .plus] binary_builds
  have hcomparison := chain_like hsum [.greater, .greaterEqual, .less, .lessEqual] binary_builds
  have hequality := chain_like hcomparison [.bangEqual, .equalEqual] binary_builds
  have hconjunction := chain_like hequality [.andWord] logical_builds
  exact chain_like hconjunction [.orWord] logical_builds

theorem assignment_like (hexpression : Like L (Node.Like L) expression expression')
    (hunary : Like L (Node.Like L) unary unary') :
    Like L (Node.Like L) (assignment expression unary) (assignment expression' unary') := by
  refine .bind (disjunction_like hunary) fun target target' htarget => ?_
  refine .ask (.check [.equal]) ?_ (.pure htarget)
  refine .bind .position fun index index' hindex => ?_
  obtain rfl : index = index' := hindex
  refine .bind .advance fun equals equals' hequals => ?_
  refine .bind hexpression fun value value' hvalue => ?_
  have invalid : Like L (Node.Like L)
      (report equals index .assignmentTarget >>= fun _ => pure target)
      (report equals' index .assignmentTarget >>= fun _ => pure target') :=
    .seq (.report hequals index _) fun _ _ => .pure htarget
  -- The left sides are alike, so that both are names or neither is.
  cases htarget with
  | reference hname => exact .pure (.assign hname hvalue)
  | _ => exact invalid

theorem literal_like (j : Json) : Like L (Node.Like L) (literal j) (literal j) :=
  .seq .advance fun _ _ => .pure .literal

theorem primary_like (hexpression : Like L (Node.Like L) expression expression') :
    Like L (Node.Like L) (primary expression) (primary expression') := by
  refine .bind .peek fun t u htu => ?_
  have htext := L.sameText htu
  rw [htext.kind, htext.literal, htext.terminated]
  split
  · exact literal_like _
  · exact literal_like _
  · exact literal_like _
  · exact literal_like _
  · split
    · exact literal_like _
    · exact .fail _
  · exact .seq .advance fun _ _ => .pure (.reference (Likeness.marks_of_tokens htu))
  · refine .seq .advance fun _ _ => .bind hexpression fun inner inner' hinner => ?_
    exact .seq (.expect _ _) fun _ _ => .pure (.grouping hinner)
  · exact .fail _
  · exact .fail _

theorem callsFrom_like (hexpression : Like L (Node.Like L) expression expression') (n : Nat)
    {e f : Node} (hef : Node.Like L e f) :
    Like L (Node.Like L) (callsFrom expression n e) (callsFrom expression' n f) := by
  induction n generalizing e f with
  | zero => exact .stuck
  | succ n ih =>
    refine .ask (.accept .leftParen) ?_ (.pure hef)
    refine .bind (listing_like hexpression _) fun es fs hs => ?_
    refine .bind (.expect _ _) fun paren paren' hparen => ih ?_
    exact .of_call hef (Likeness.marks_of_tokens hparen.1) hparen.2 hs

theorem called_like (hexpression : Like L (Node.Like L) expression expression') :
    Like L (Node.Like L) (called expression) (called expression') :=
  .bind (primary_like hexpression) fun _ _ h => .bounded fun n => callsFrom_like hexpression n h

theorem prefixed_like (hexpression : Like L (Node.Like L) expression expression')
    (hunary : Like L (Node.Like L) unary unary') :
    Like L (Node.Like L) (prefixed expression unary) (prefixed expression' unary') := by
  refine .ask (.check _) (.bind .advance fun op op' hop => ?_) (called_like hexpression)
  exact .bind hunary fun e f hef => .pure (.unary (Likeness.marks_of_tokens hop) hef)

end

theorem expressions_upTo_like (L : Likeness) (n : Nat) :
    Like L (Node.Like L) (expressionUpTo n) (expressionUpTo n) ∧
      Like L (Node.Like L) (unaryUpTo n) (unaryUpTo n) := by
  induction n with
  | zero => exact ⟨.stuck, .stuck⟩
  | succ n ih => exact ⟨assignment_like ih.1 ih.2, prefixed_like ih.1 ih.2⟩

theorem expression_like : Like L (Node.Like L) expression expression :=
  .bounded fun n => (expressions_upTo_like L n).1

/-! ### Statements -/

theorem skipToBoundary_like (n : Nat) :
    Like L (fun _ _ => True) (skipToBoundary n) (skipToBoundary n) := by
  induction n with
  | zero => exact .stuck
  | succ n ih =>
    intro s s' hs
    have hprevious : s.cursor.previous.any (·.kind == .semicolon)
        = s'.cursor.previous.any (·.kind == .semicolon) := by
      have h := hs.cursor.previous
      generalize s.cursor.previous = t, s'.cursor.previous = u at h
      cases h with
      | none => rfl
      | some htu => rw [Option.any_some, Option.any_some, (L.sameText htu).kind]
    rw [skipToBoundary]
    beta_reduce
    rw [hs.cursor.isAtEnd_eq, hs.cursor.check_eq, hprevious]
    split
    · exact .ok trivial hs
    · exact ih _ _ { hs with cursor := hs.cursor.next }

theorem resume_like : Like L (fun _ _ => True) resume resume :=
  .seq .advance fun _ _ => .bounded fun n => skipToBoundary_like n

/-- A declaration is dropped on both sides or on neither. -/
theorem recovering_like {p q : Reader Node} (hpq : Like L (Node.Like L) p q) :
    Like L (Option.Rel (Node.Like L)) (recovering p) (recovering q) := by
  intro s s' hs
  rw [recovering, recovering]
  have h := hpq s s' hs
  generalize p s = r, q s' = r' at h ⊢
  cases h with
  | ok hef hs => exact .ok (.some hef) hs
  | @failed s s' hs =>
    dsimp only
    have h := resume_like s s' hs
    generalize resume s = r, resume s' = r' at h ⊢
    cases h with
    | ok _ hs => exact .ok .none hs
    | failed hs => exact .failed hs
    | stuck => exact .stuck
  | stuck => exact .stuck

theorem inFunction_like {p : Reader α} {q : Reader β} (hpq : Like L results p q) :
    Like L results (inFunction p) (inFunction q) := by
  intro s s' hs
  rw [inFunction, inFunction]
  have h := hpq { s with depth := s.depth + 1 } { s' with depth := s'.depth + 1 }
    { hs with depth := congrArg (· + 1) hs.depth }
  generalize p { s with depth := s.depth + 1 } = r, q { s' with depth := s'.depth + 1 } = r'
    at h ⊢
  cases h with
  | ok hresults hs => exact .ok hresults { hs with depth := congrArg (· - 1) hs.depth }
  | failed hs => exact .failed { hs with depth := congrArg (· - 1) hs.depth }
  | stuck => exact .stuck

theorem atBlockEnd_like : Like L (· = ·) atBlockEnd atBlockEnd := by
  intro s s' hs
  rw [atBlockEnd, hs.cursor.check_eq, hs.cursor.isAtEnd_eq]
  exact .ok rfl hs

theorem parameter_like : Like L L.marks parameter parameter :=
  .bind (.expect _ _) fun _ _ h => .pure (Likeness.marks_of_tokens h.1)

theorem variableFrom_like : Like L (Node.Like L) variableFrom variableFrom := by
  refine .bind (.expect _ _) fun name name' hname => ?_
  have rest {e f : Node} (hef : Node.Like L e f) : Like L (Node.Like L)
      (expect .semicolon .semicolonAfterVariable >>= fun _ => pure (.declare name.mark e))
      (expect .semicolon .semicolonAfterVariable >>= fun _ => pure (.declare name'.mark f)) :=
    .seq (.expect _ _) fun _ _ => .pure (.declare (Likeness.marks_of_tokens hname.1) hef)
  exact .ask (.accept .equal) (.bind expression_like fun _ _ hef => rest hef) (rest .missing)

theorem expressionStatement_like :
    Like L (Node.Like L) expressionStatement expressionStatement :=
  .bind expression_like fun _ _ hef => .seq (.expect _ _) fun _ _ => .pure (.evaluate hef)

theorem printFrom_like : Like L (Node.Like L) printFrom printFrom :=
  .bind expression_like fun _ _ hef => .seq (.expect _ _) fun _ _ => .pure (.print hef)

theorem forLoop_like {e f e' f' e'' f'' body body' : Node} (h : Node.Like L e f)
    (h' : Node.Like L e' f') (h'' : Node.Like L e'' f'') (hbody : Node.Like L body body') :
    Node.Like L (forLoop e e' e'' body) (forLoop f f' f'' body') := by
  have hlast : Node.Like L (if e''.isMissing then body else .block [body, .evaluate e''])
      (if e''.isMissing then body' else .block [body', .evaluate f'']) := by
    split
    · exact hbody
    · exact .of_block (.cons hbody (.cons (.evaluate h'') .nil))
  have hcondition : Node.Like L (if e'.isMissing then .literal (.bool true) else e')
      (if e'.isMissing then .literal (.bool true) else f') := by
    split
    · exact .literal
    · exact h'
  rw [forLoop, forLoop, ← h.isMissing_eq, ← h'.isMissing_eq, ← h''.isMissing_eq]
  split
  · exact .loop hcondition hlast
  · exact .of_block (.cons h (.cons (.loop hcondition hlast) .nil))

theorem forInitializer_like : Like L (Node.Like L) forInitializer forInitializer :=
  .ask (.accept _) (.pure .missing) (.ask (.accept _) variableFrom_like expressionStatement_like)

theorem optionalBefore_like (kind : Kind) :
    Like L (Node.Like L) (optionalBefore kind) (optionalBefore kind) :=
  .ask (.check _) (.pure .missing) expression_like

theorem demandFunction_like {t u : Token} (htu : L.tokens t u) (index : Nat) :
    Like L (fun _ _ => True) (demandFunction t index) (demandFunction u index) := by
  intro s s' hs
  rw [demandFunction, demandFunction, hs.depth]
  split
  · exact Like.report htu index _ s s' hs
  · exact .ok trivial hs

theorem returnStatement_like : Like L (Node.Like L) returnStatement returnStatement := by
  refine .bind .position fun index index' hindex => ?_
  obtain rfl : index = index' := hindex
  refine .bind .advance fun keyword keyword' hkeyword => ?_
  refine .seq (demandFunction_like hkeyword index) fun _ _ => ?_
  refine .bind (optionalBefore_like _) fun e f hef => ?_
  exact .seq (.expect _ _) fun _ _ => .pure (.giveBack (Likeness.marks_of_tokens hkeyword) hef)

section

variable {declaration declaration' : Reader (Option Node)} {statement statement' : Reader Node}

theorem declarationsUntil_like {stop : Reader Bool} (hstop : Like L (· = ·) stop stop)
    (hdeclaration : Like L (Option.Rel (Node.Like L)) declaration declaration') (n : Nat) :
    Like L (Node.AllLike L) (declarationsUntil stop declaration n)
      (declarationsUntil stop declaration' n) := by
  induction n with
  | zero => exact .stuck
  | succ n ih =>
    refine .ask hstop (.pure .nil) (.bind hdeclaration fun e f hef => .bind ih fun es fs hs => ?_)
    refine .pure ?_
    cases hef with
    | none => exact hs
    | some hef => exact .cons hef hs

theorem blockBody_like
    (hdeclaration : Like L (Option.Rel (Node.Like L)) declaration declaration') :
    Like L (Node.AllLike L) (blockBody declaration) (blockBody declaration') :=
  .bind (.bounded fun n => declarationsUntil_like atBlockEnd_like hdeclaration n)
    fun _ _ hs => .seq (.expect _ _) fun _ _ => .pure hs

theorem function_like
    (hdeclaration : Like L (Option.Rel (Node.Like L)) declaration declaration') :
    Like L (Node.Like L) (function declaration) (function declaration') := by
  refine .bind (.expect _ _) fun name name' hname => .seq (.expect _ _) fun _ _ => ?_
  refine .bind (listing_like parameter_like _) fun params params' hparams => ?_
  refine .seq (.expect _ _) fun _ _ => .seq (.expect _ _) fun _ _ => ?_
  refine .bind (inFunction_like (blockBody_like hdeclaration)) fun es fs hs => .pure ?_
  exact .of_function (Likeness.marks_of_tokens hname.1) hparams hs

theorem ifFrom_like (hstatement : Like L (Node.Like L) statement statement') :
    Like L (Node.Like L) (ifFrom statement) (ifFrom statement') := by
  refine .seq (.expect _ _) fun _ _ => .bind expression_like fun e f hef => ?_
  refine .seq (.expect _ _) fun _ _ => .bind hstatement fun e' f' hef' => ?_
  refine .ask (.accept _) (.bind hstatement fun e'' f'' hef'' => .pure (.branch hef hef' hef'')) ?_
  exact .pure (.branch hef hef' .missing)

theorem whileFrom_like (hstatement : Like L (Node.Like L) statement statement') :
    Like L (Node.Like L) (whileFrom statement) (whileFrom statement') := by
  refine .seq (.expect _ _) fun _ _ => .bind expression_like fun e f hef => ?_
  exact .seq (.expect _ _) fun _ _ => .bind hstatement fun e' f' hef' => .pure (.loop hef hef')

theorem forFrom_like (hstatement : Like L (Node.Like L) statement statement') :
    Like L (Node.Like L) (forFrom statement) (forFrom statement') := by
  refine .seq (.expect _ _) fun _ _ => .bind forInitializer_like fun e f hef => ?_
  refine .bind (optionalBefore_like _) fun e' f' hef' => .seq (.expect _ _) fun _ _ => ?_
  refine .bind (optionalBefore_like _) fun e'' f'' hef'' => .seq (.expect _ _) fun _ _ => ?_
  exact .bind hstatement fun body body' hbody => .pure (forLoop_like hef hef' hef'' hbody)

theorem statementStep_like
    (hdeclaration : Like L (Option.Rel (Node.Like L)) declaration declaration')
    (hstatement : Like L (Node.Like L) statement statement') :
    Like L (Node.Like L) (statementStep declaration statement)
      (statementStep declaration' statement') := by
  refine .bind .peek fun t u htu => ?_
  rw [(L.sameText htu).kind]
  split
  · exact .seq .advance fun _ _ => printFrom_like
  · exact .seq .advance fun _ _ => ifFrom_like hstatement
  · exact .seq .advance fun _ _ => whileFrom_like hstatement
  · exact .seq .advance fun _ _ => forFrom_like hstatement
  · exact returnStatement_like
  · exact .seq .advance fun _ _ => .bind (blockBody_like hdeclaration) fun _ _ hs =>
      .pure (.of_block hs)
  · exact expressionStatement_like

theorem declarationStep_like
    (hdeclaration : Like L (Option.Rel (Node.Like L)) declaration declaration')
    (hstatement : Like L (Node.Like L) statement statement') :
    Like L (Node.Like L) (declarationStep declaration statement)
      (declarationStep declaration' statement') :=
  .ask (.accept _) (function_like hdeclaration) (.ask (.accept _) variableFrom_like hstatement)

end

theorem statements_upTo_like (L : Likeness) (n : Nat) :
    Like L (Option.Rel (Node.Like L)) (declarationUpTo n) (declarationUpTo n) ∧
      Like L (Node.Like L) (statementUpTo n) (statementUpTo n) := by
  induction n with
  | zero => exact ⟨.stuck, .stuck⟩
  | succ n ih =>
    exact ⟨recovering_like (declarationStep_like ih.1 ih.2), statementStep_like ih.1 ih.2⟩

theorem program_like : Like L (Node.AllLike L) program program :=
  .bounded fun n => declarationsUntil_like .atEnd (.bounded fun n => (statements_upTo_like L n).1) n

end Reader

/-! ### Programs -/

/-- Two programs that are alike, and the errors that were found in them. -/
structure Program.Like (L : Likeness) (p q : Program) : Prop where
  statements : Node.AllLike L p.statements q.statements
  errors : List.Forall₂ (SyntaxError.Like L) p.errors q.errors
  heard : List.Forall₂ (SyntaxError.Like L) p.heard q.heard

theorem Program.Like.ok_eq {p q : Program} (h : p.Like L q) : p.ok = q.ok := by
  rw [ok, ok]
  have herrors := h.errors
  generalize p.errors = es, q.errors = fs at herrors
  cases herrors with
  | nil => rfl
  | cons _ _ => rfl

/-- Of tokens that are taken for each other, programs are read that are alike. -/
theorem Program.ofTokens_like {ts us : List Token} (h : List.Forall₂ L.tokens ts us) :
    (Program.ofTokens ts).Like L (Program.ofTokens us) := by
  have empty : Program.Like L ⟨[], [], []⟩ ⟨[], [], []⟩ := ⟨.nil, .nil, .nil⟩
  cases h with
  | nil => exact empty
  | @cons t u ts us htu hrest =>
    have hstart : Reading.Like L (.start ⟨none, t, ts, 0⟩) (.start ⟨none, u, us, 0⟩) :=
      ⟨⟨.none, htu, hrest, rfl⟩, .nil, .nil, rfl⟩
    have hread := Reader.program_like _ _ hstart
    rw [ofTokens, ofTokens, Cursor.ofTokens?, Cursor.ofTokens?]
    dsimp only
    generalize Reader.program (.start ⟨none, t, ts, 0⟩) = r,
      Reader.program (.start ⟨none, u, us, 0⟩) = r' at hread ⊢
    cases hread with
    | ok hs hstate => exact ⟨hs, hstate.errors, hstate.heard⟩
    | failed hstate => exact ⟨.nil, hstate.errors, hstate.heard⟩
    | stuck => exact empty

end LoxLang
