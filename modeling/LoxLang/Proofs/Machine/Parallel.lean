/-
Two programs that are run side by side.

The evaluator looks at the lexemes and the kinds of marks only, and not at the places where they
stand.  So trees that are alike (`Node.Like`) do the same: what is printed is the same on both
sides, the same names are bound in the same scopes, and values and runtime errors are alike.

* `evaluateStep_like`, `executeStep_like` — what one node does;
* `evaluateUpTo_like`, `executeUpTo_like` — what any node does, by induction on the bound;
* `run_like`, `runProgram_like` — programs.
-/
import LoxLang.Proofs.Machine.Likeness
import LoxLang.Proofs.Machine.Session
import LoxLang.Proofs.Reader.Parallel

namespace LoxLang

variable {L : Likeness} {α β : Type} {results : α → β → Prop}

/-! ### Operators -/

section

variable {m n : Mark} {v w v' w' : Value}

theorem unaryValue_like (hop : L.marks m n) (hvw : v.Like L w) :
    Effect.Like L (Value.Like L) (unaryValue m v) (unaryValue n w) := by
  have hfail : Effect.Like L (Value.Like L) (Effect.fail m .operand) (Effect.fail n .operand) :=
    .fail hop nofun
  unfold unaryValue
  rw [Likeness.kind_of_marks hop, hvw.isTruthy_eq]
  split
  · exact .pure (.same (by simp))
  · cases hvw with
    | function _ => exact hfail
    | same _ =>
      cases v with
      | number x => exact .pure (.same (by simp))
      | _ => exact hfail

theorem arithmetic_like (hop : L.marks m n) (x y : Float) :
    Effect.Like L (Value.Like L) (arithmetic m x y) (arithmetic n x y) := by
  rw [arithmetic, arithmetic, Likeness.kind_of_marks hop, Likeness.lexeme_of_marks hop]
  split
  all_goals first
    | exact .fail hop nofun
    | exact .pure (.same (by simp))

theorem binaryValue_like (hop : L.marks m n) (hvw : v.Like L w) (hvw' : v'.Like L w') :
    Effect.Like L (Value.Like L) (binaryValue m v v') (binaryValue n w w') := by
  have hfail {fault : RuntimeFault} (hfault : fault ≠ .stackOverflow) :
      Effect.Like L (Value.Like L) (Effect.fail m fault) (Effect.fail n fault) :=
    .fail hop fun h => absurd h hfault
  unfold binaryValue
  rw [Likeness.kind_of_marks hop, hvw.equal_eq hvw']
  -- Functions are no operands of an operator other than those for equality.
  split
  · exact .pure (.same (by simp))
  · exact .pure (.same (by simp))
  · cases hvw with
    | function _ => exact hfail nofun
    | same _ =>
      cases hvw' with
      | function _ => cases v <;> exact hfail nofun
      | same _ =>
        split
        · exact .pure (.same (by simp))
        · exact .pure (.same (by simp))
        · exact hfail nofun
  · cases hvw with
    | function _ => exact hfail nofun
    | same _ =>
      cases hvw' with
      | function _ => cases v <;> exact hfail nofun
      | same _ =>
        split
        · exact arithmetic_like hop _ _
        · exact hfail nofun

end

/-! ### Statements in a scope, and calls -/

/-- Nodes that are alike do the same. -/
def Respects (L : Likeness) (x : Node → Effect Value) : Prop :=
  ∀ e f, Node.Like L e f → Effect.Like L (Value.Like L) (x e) (x f)

section

variable {settings : Settings} {evaluate execute : Node → Effect Value} {e f : Node}
  {es fs : List Node} {m n : Mark} {v w : Value} {vs ws : List Value}

theorem evaluateAll_like (hevaluate : Respects L evaluate) (hs : Node.AllLike L es fs) :
    Effect.Like L (List.Forall₂ (Value.Like L)) (evaluateAll evaluate es)
      (evaluateAll evaluate fs) :=
  evaluateAll_forall₂ (C := sideBySide L) hs fun e f hef _ _ => hevaluate e f hef

theorem executeAll_like (hexecute : Respects L execute) (hs : Node.AllLike L es fs) :
    Effect.Like L (fun _ _ => True) (executeAll execute es) (executeAll execute fs) :=
  executeAll_forall₂ (C := sideBySide L) hs fun e f hef _ _ => hexecute e f hef

theorem leaveScope_like (settings : Settings) (previous left : Handle) :
    Effect.Like L (· = ·) (leaveScope settings previous left)
      (leaveScope settings previous left) := by
  refine .seq (.modify fun _ _ h => { h with current := rfl }) fun _ _ => ?_
  split
  · exact .releaseScope left
  · exact .pure rfl

theorem executeIn_like (settings : Settings) (hexecute : Respects L execute)
    (hs : Node.AllLike L es fs) (scope : Handle) :
    Effect.Like L (fun _ _ => True) (executeIn settings execute es scope)
      (executeIn settings execute fs scope) := by
  refine .getting (fun _ _ hm => hm.current) fun previous => ?_
  refine .ensuring ?_ (leaveScope_like settings previous scope)
  exact .seq (.modify fun _ _ h => { h with current := rfl }) fun _ _ =>
    executeAll_like hexecute hs

theorem executeBlock_like (settings : Settings) (hexecute : Respects L execute)
    (hs : Node.AllLike L es fs) :
    Effect.Like L (fun _ _ => True) (executeBlock settings execute es)
      (executeBlock settings execute fs) := by
  refine .getting (fun _ _ hm => hm.current) fun current => ?_
  refine .bind (.pushScope current) fun h h' heq => ?_
  obtain rfl : h = h' := heq
  exact executeIn_like settings hexecute hs h

theorem bindParameters_like (scope : Handle) {ms ns : List Mark}
    (hparams : List.Forall₂ L.marks ms ns) (hs : List.Forall₂ (Value.Like L) vs ws) :
    Effect.Like L (fun _ _ => True) (bindParameters scope ms vs)
      (bindParameters scope ns ws) := by
  induction hparams generalizing vs ws with
  | nil => exact .pure trivial
  | cons hmn _ ih =>
    cases hs with
    | nil => exact .pure trivial
    | cons hvw hs => exact .seq (.define scope hmn hvw) fun _ _ => ih hs

/-- What is given back to the call is alike. -/
theorem catchReturned_like {x y : Effect Unit} (hxy : Effect.Like L (fun _ _ => True) x y) :
    Effect.Like L (Value.Like L) (catchReturned x) (catchReturned y) := by
  intro _ _ p q hp
  have h := hxy.apply hp
  rw [catchReturned, catchReturned]
  generalize x p = o, y q = o' at h ⊢
  cases h with
  | done _ hm _ => exact Outcome.Like.done hm (.ofJson .null)
  | stopped _ hm hstop =>
    cases hstop with
    | returned h => exact Outcome.Like.done hm h
    | failed h => exact Outcome.Like.stopped hm (.failed h)
    | broken h => exact Outcome.Like.stopped hm (.broken h)
    | exhausted => exact Outcome.Like.stopped hm .exhausted

theorem runBody_like (settings : Settings) (hexecute : Respects L execute) {f g : Function}
    (hfg : f.Like L g) (hs : List.Forall₂ (Value.Like L) vs ws) :
    Effect.Like L (Value.Like L) (runBody settings execute f vs)
      (runBody settings execute g ws) := by
  rw [runBody, runBody, hfg.closure]
  refine .bind (.pushScope g.closure) fun h h' heq => ?_
  obtain rfl : h = h' := heq
  refine .seq (bindParameters_like h hfg.params hs) fun _ _ => ?_
  refine .seq (.modify fun _ _ hm => { hm with calls := .cons hfg hm.calls }) fun _ _ => ?_
  exact .ensuring (catchReturned_like (executeIn_like settings hexecute hfg.body h))
    (.modify fun _ _ hm => { hm with calls := hm.tail_calls })

theorem call_like (settings : Settings) (hexecute : Respects L execute) (hvw : v.Like L w)
    (hs : List.Forall₂ (Value.Like L) vs ws) (hparen : L.marks m n)
    (hclosing : m.kind = .rightParen) :
    Effect.Like L (Value.Like L) (call settings execute v vs m) (call settings execute w ws n) := by
  cases hvw with
  | @function f g hfg =>
    by_cases hcount : vs.length = f.arity
    · rw [Simulation.call_function settings execute f vs m hcount,
        Simulation.call_function settings execute g ws n
          (by rw [← hs.length_eq, hcount, hfg.arity_eq])]
      refine .told (.traceFrom 4 settings _) (.traceFrom 4 settings _) ?_
      refine .getting (fun _ _ hm => hm.calls.length_eq) fun count => ?_
      split
      · exact .fail hparen fun _ => hclosing
      · exact runBody_like settings hexecute hfg hs
    · have hcount' : ws.length ≠ g.arity := by rwa [← hs.length_eq, ← hfg.arity_eq]
      rw [call, call, if_pos hcount, if_pos hcount', hfg.arity_eq, hs.length_eq]
      exact .fail hparen fun _ => hclosing
  | same hv =>
    cases v with
    | function f => exact absurd rfl (hv f)
    | _ => exact .fail hparen fun _ => hclosing

theorem declareFunction_like (settings : Settings) (hmn : L.marks m n) {ms ns : List Mark}
    (hparams : List.Forall₂ L.marks ms ns) (hs : Node.AllLike L es fs) :
    Effect.Like L (Value.Like L) (declareFunction settings m ms es)
      (declareFunction settings n ns fs) := by
  rw [declareFunction_eq, declareFunction_eq]
  refine .getting (fun _ _ hm => hm.closure_eq) fun closure => ?_
  refine .seq (.pinScope closure) fun _ _ => ?_
  refine .getting (fun _ _ hm => hm.nextId) fun id => ?_
  refine .seq (.modify fun _ _ hm => { hm with nextId := rfl }) fun _ _ => ?_
  refine .seq (.defineHere hmn (.function ⟨rfl, hmn, hparams, hs, rfl⟩)) fun _ _ => ?_
  exact .told (.traceFrom 2 settings _) (.traceFrom 2 settings _) .nil

/-! ### Nodes -/

theorem evaluateStep_like (settings : Settings) (hevaluate : Respects L evaluate)
    (hexecute : Respects L execute) : Respects L (evaluateStep settings evaluate execute) := by
  intro e f hef
  have notExpression {e f : Node} (h : Node.Like L e f) :
      Effect.Like L (Value.Like L) (Effect.stop (.broken (.expression e)))
        (Effect.stop (.broken (.expression f))) := .stop (.broken (.expression h))
  cases hef with
  | literal => exact .pure (.ofJson _)
  | grouping h => exact hevaluate _ _ h
  | reference hname => exact .lookUp hname
  | assign hname h =>
    refine .bind (hevaluate _ _ h) fun v w hvw => ?_
    exact .seq (.assign hname hvw) fun _ _ => .pure hvw
  | unary hop h => exact .bind (hevaluate _ _ h) fun v w hvw => unaryValue_like hop hvw
  | logical hleft hop hright =>
    refine .bind (hevaluate _ _ hleft) fun v w hvw => ?_
    rw [hvw.isTruthy_eq, Likeness.kind_of_marks hop]
    split
    · exact .pure hvw
    · exact hevaluate _ _ hright
  | binary hleft hop hright =>
    refine .bind (hevaluate _ _ hleft) fun v w hvw => ?_
    exact .bind (hevaluate _ _ hright) fun v' w' hvw' => binaryValue_like hop hvw hvw'
  | call hcallee hparen hclosing hlength hs =>
    refine .bind (hevaluate _ _ hcallee) fun v w hvw => ?_
    refine .bind (evaluateAll_like hevaluate (.of_zip hlength hs)) fun vs ws hs => ?_
    exact call_like settings hexecute hvw hs hparen hclosing
  | missing => exact notExpression .missing
  | many hlength hs => exact notExpression (.many hlength hs)
  | evaluate h => exact notExpression (.evaluate h)
  | print h => exact notExpression (.print h)
  | declare hname h => exact notExpression (.declare hname h)
  | block hlength hs => exact notExpression (.block hlength hs)
  | branch h h' h'' => exact notExpression (.branch h h' h'')
  | loop h h' => exact notExpression (.loop h h')
  | function hname hparams hlength hs => exact notExpression (.function hname hparams hlength hs)
  | giveBack hword h => exact notExpression (.giveBack hword h)

/-- A part that may be left out, and is nil then. -/
theorem orNil_like (hevaluate : Respects L evaluate) (hef : Node.Like L e f) :
    Effect.Like L (Value.Like L) (if e.isMissing then pure .nil else evaluate e)
      (if f.isMissing then pure .nil else evaluate f) := by
  rw [hef.isMissing_eq]
  split
  · exact .nil
  · exact hevaluate e f hef

theorem executeStep_like (settings : Settings) (hevaluate : Respects L evaluate)
    (hexecute : Respects L execute) (rounds : Nat) :
    Respects L (executeStep settings evaluate execute rounds) := by
  intro e f hef
  have notStatement {e f : Node} (h : Node.Like L e f) :
      Effect.Like L (Value.Like L) (Effect.stop (.broken (.statement e)))
        (Effect.stop (.broken (.statement f))) := .stop (.broken (.statement h))
  cases hef with
  | evaluate h => exact hevaluate _ _ h
  | print h =>
    refine .bind (hevaluate _ _ h) fun v w hvw => ?_
    rw [hvw.display_eq]
    exact .seq (.print _) fun _ _ => .nil
  | declare hname h =>
    rw [Simulation.executeStep_declare, Simulation.executeStep_declare]
    refine .bind (orNil_like hevaluate h) fun v w hvw => ?_
    refine .seq (.defineHere hname hvw) fun _ _ => ?_
    exact .told (.traceFrom 2 settings _) (.traceFrom 2 settings _) .nil
  | block hlength hs =>
    rw [Simulation.executeStep_block, Simulation.executeStep_block]
    exact .seq (executeBlock_like settings hexecute (.of_zip hlength hs)) fun _ _ => .nil
  | @branch e f e' f' e'' f'' h h' h'' =>
    rw [Simulation.executeStep_branch, Simulation.executeStep_branch]
    refine .bind (hevaluate _ _ h) fun v w hvw => ?_
    refine .told (.traceFrom 3 settings _) (.traceFrom 3 settings _) ?_
    have htaken : Effect.Like L (Value.Like L)
        (if v.isTruthy then execute e' else if e''.isMissing then pure .nil else execute e'')
        (if w.isTruthy then execute f' else if f''.isMissing then pure .nil else execute f'') := by
      rw [hvw.isTruthy_eq]
      split
      · exact hexecute _ _ h'
      · exact orNil_like hexecute h''
    exact htaken.seq fun _ _ => .nil
  | @loop e f e' f' h h' =>
    rw [Simulation.executeStep_loop, Simulation.executeStep_loop]
    have hc : Effect.Like L (· = ·) (Value.isTruthy <$> evaluate e) (Value.isTruthy <$> evaluate f) :=
      .map (hevaluate _ _ h) fun _ _ hvw => hvw.isTruthy_eq
    have hbody : Effect.Like L (fun _ _ => True) (execute e' >>= fun _ => pure ())
        (execute f' >>= fun _ => pure ()) := .seq (hexecute _ _ h') fun _ _ => .pure trivial
    refine .seq (.whileTrue hc hbody rounds) fun _ _ => ?_
    exact .told (.traceFrom 3 settings _) (.traceFrom 3 settings _) .nil
  | function hname hparams hlength hs =>
    exact declareFunction_like settings hname hparams (.of_zip hlength hs)
  | giveBack hword h =>
    intro _ _ p q hp
    rw [Simulation.executeStep_giveBack, Simulation.executeStep_giveBack]
    have hcalls : p.calls = [] ↔ q.calls = [] := by
      rw [← List.length_eq_zero_iff, hp.calls.length_eq, List.length_eq_zero_iff]
    by_cases hp' : p.calls = []
    · rw [if_pos hp', if_pos (hcalls.mp hp')]
      exact Outcome.Like.stopped hp (.failed ⟨hword, rfl, nofun⟩)
    · rw [if_neg hp', if_neg (mt hcalls.mpr hp')]
      have hback : Effect.Like L (Value.Like L) _ _ :=
        .bind (orNil_like hevaluate h) fun v w hvw => .stop (.returned hvw)
      exact hback.apply hp
  | missing => exact notStatement .missing
  | many hlength hs => exact notStatement (.many hlength hs)
  | literal => exact notStatement .literal
  | grouping h => exact notStatement (.grouping h)
  | unary hop h => exact notStatement (.unary hop h)
  | binary h hop h' => exact notStatement (.binary h hop h')
  | logical h hop h' => exact notStatement (.logical h hop h')
  | reference hname => exact notStatement (.reference hname)
  | assign hname h => exact notStatement (.assign hname h)
  | call h hparen hclosing hlength hs =>
    exact notStatement (.call h hparen hclosing hlength hs)

end

theorem upTo_like (L : Likeness) (settings : Settings) (n : Nat) :
    Respects L (evaluateUpTo settings n) ∧ Respects L (executeUpTo settings n) := by
  induction n with
  | zero =>
    have exhausted : Effect.Like L (Value.Like L) (Effect.stop .exhausted)
        (Effect.stop .exhausted) := .stop .exhausted
    exact ⟨fun _ _ _ => exhausted, fun _ _ _ => exhausted⟩
  | succ n ih =>
    exact ⟨evaluateStep_like settings ih.1 ih.2, executeStep_like settings ih.1 ih.2 n⟩

/-- Expressions that are alike have values that are, whatever the bound. -/
theorem evaluateUpTo_like (L : Likeness) (settings : Settings) (n : Nat) :
    Respects L (evaluateUpTo settings n) :=
  (upTo_like L settings n).1

/-- Statements that are alike do the same, whatever the bound. -/
theorem executeUpTo_like (L : Likeness) (settings : Settings) (n : Nat) :
    Respects L (executeUpTo settings n) :=
  (upTo_like L settings n).2

/-! ### Runs -/

/-- Results of runs that are alike. -/
structure Completion.Like (L : Likeness) (r r' : Completion) : Prop where
  syntaxErrors : List.Forall₂ (SyntaxError.Like L) r.syntaxErrors r'.syntaxErrors
  runtimeError : Option.Rel (RuntimeError.Like L) r.runtimeError r'.runtimeError
  value : r.value.Like L r'.value

theorem Completion.Like.status_eq {r r' : Completion} (h : r.Like L r') :
    r.status = r'.status := by
  obtain ⟨errors, error, value⟩ := r
  obtain ⟨errors', error', value'⟩ := r'
  obtain ⟨herrors, herror, -⟩ := h
  dsimp only at herrors herror
  cases herrors with
  | nil =>
    cases herror with
    | none => rfl
    | some _ => rfl
  | cons _ _ => rfl

section

variable {settings : Settings} {execute : Node → Effect Value} {es fs : List Node}
  {V : Value → Value → Prop} {v w : Value}

/-- Statements up to the first runtime error.  Of the values before the first statement no more
need be known than what is to be known of those after the last. -/
theorem executeFrom_like (hexecute : Respects L execute) (hs : Node.AllLike L es fs)
    (hV : ∀ a b, Value.Like L a b → V a b) (hvw : V v w) :
    Effect.Like L (fun x y => V x.1 y.1 ∧ Option.Rel (RuntimeError.Like L) x.2 y.2)
      (executeFrom execute es v) (executeFrom execute fs w) := by
  induction hs generalizing v w with
  | nil => exact .pure ⟨hvw, .none⟩
  | cons hef _ ih =>
    intro _ _ m n hm
    have h := (hexecute _ _ hef).apply hm
    rw [executeFrom, executeFrom]
    beta_reduce
    generalize execute _ m = o, execute _ n = o' at h ⊢
    cases h with
    | done _ hm hab => exact (ih (hV _ _ hab)).apply hm
    | stopped _ hm hstop =>
      cases hstop with
      -- A runtime error ends the list, not the effect.
      | failed h => exact Outcome.Like.done hm ⟨hvw, .some h⟩
      | returned h => exact Outcome.Like.stopped hm (.returned h)
      | broken h => exact Outcome.Like.stopped hm (.broken h)
      | exhausted => exact Outcome.Like.stopped hm .exhausted

theorem finishRun_tells (settings : Settings) (x : Value × Option RuntimeError) :
    (Simulation.finishRun settings x).Tells ⟨[], x.2, x.1⟩ := by
  obtain ⟨v, error⟩ := x
  cases error with
  | none => exact .bind (.trace _ _) (.pure _)
  | some e => exact .bind (.trace _ _) (.bind (.report _) (.bind (.trace _ _) (.pure _)))

theorem reportAll_tells (errors : List SyntaxError) : (reportAll errors).Tells () := by
  induction errors with
  | nil => exact .pure ()
  | cons e rest ih => exact .bind (.report _) ih

theorem run_like (settings : Settings) (hs : Node.AllLike L es fs) :
    Effect.Like L (Completion.Like L) (run settings es) (run settings fs) := by
  rw [Simulation.run_eq_runWith, Simulation.run_eq_runWith]
  refine .told (.trace _ _) (.trace _ _) ?_
  refine .bind (executeFrom_like (executeUpTo_like L settings _) hs (fun _ _ h => h)
    (.ofJson .null)) fun x y hxy => ?_
  exact .of_tells (finishRun_tells settings x) (finishRun_tells settings y) ⟨.nil, hxy.2, hxy.1⟩

theorem runProgram_like (settings : Settings) {p q : Program} (h : p.Like L q) :
    Effect.Like L (Completion.Like L) (runProgram settings p) (runProgram settings q) := by
  refine .told (reportAll_tells _) (reportAll_tells _) ?_
  rw [h.ok_eq]
  split
  · exact run_like settings h.statements
  · exact .pure ⟨h.errors, .none, .ofJson .null⟩

end

end LoxLang
