/-
One evaluator on two machines.

A `Simulation` is a correspondence of which a few facts have been checked: that the effects at
the leaves of the evaluator (looking up a name, binding one, writing a line, entering and
leaving a scope, ...) take corresponding machines to corresponding ones.  From these facts
alone it follows, once and for all, that whole evaluations and executions correspond:

* `Simulation.evaluateStep`, `Simulation.executeStep` — one node, given that the nodes inside
  it correspond;
* `Simulation.evaluateUpTo`, `Simulation.executeUpTo` — any node, by induction on the bound.

The two machines may have different settings; an invariant of one machine is the case in which
both are the same.
-/
import LoxLang.Proofs.Machine.Correspondence

namespace LoxLang

/-! ### What has to be checked -/

/-- Writes a line to the trace at levels from `least` on. -/
def traceFrom (least : Nat) (settings : Settings) (line : String) : Effect Unit :=
  if least ≤ settings.level then Effect.trace settings.level line else pure ()

/-- Executes statements in a new scope inside the current one. -/
def executeBlock (settings : Settings) (execute : Node → Effect Value)
    (statements : List Node) : Effect Unit := do
  let scope ← Effect.pushScope (← Effect.gets (·.current))
  executeIn settings execute statements scope

theorem executeBlock_apply (settings : Settings) (execute : Node → Effect Value)
    (statements : List Node) (m : Machine) :
    executeBlock settings execute statements m =
      executeIn settings execute statements (m.arena.push (some m.current)).2
        { m with arena := (m.arena.push (some m.current)).1 } := by
  have h : Effect.gets (·.current) m = .done m.current m := rfl
  rw [executeBlock, Effect.bind_of_done h, Effect.bind_of_done (Effect.pushScope_apply _ m)]

/-- The scope that a function declared now closes over: that of the innermost function being
executed, or else the current one. -/
def Machine.closure (m : Machine) : Handle :=
  match m.calls with
  | f :: _ => f.closure
  | [] => m.current

theorem declareFunction_eq (settings : Settings) (name : Mark) (params : List Mark)
    (body : List Node) :
    declareFunction settings name params body =
      Effect.gets Machine.closure >>= fun closure =>
        Effect.pinScope closure >>= fun _ =>
          Effect.gets (·.nextId) >>= fun id =>
            Effect.modify (fun m => { m with nextId := id + 1 }) >>= fun _ =>
              Effect.defineHere name (.function ⟨id, name, params, body, closure⟩) >>= fun _ =>
                traceFrom 2 settings ("define function " ++ name.lexeme.shown) >>= fun _ =>
                  pure .nil := by
  rw [declareFunction, traceFrom]
  split
  · rfl
  · rfl

/-- A correspondence that the evaluator respects.  `expression` and `statement` say of which
nodes it is claimed that evaluating and executing them correspond. -/
structure Simulation (settings settings' : Settings) extends Correspondence where
  expression : World → Node → Prop
  statement : World → Node → Prop
  expression_mono {v w : World} {e : Node} : le v w → expression v e → expression w e
  statement_mono {v w : World} {e : Node} : le v w → statement v e → statement w e
  expression_operand {w : World} {node e : Node} :
    expression w node → e ∈ node.operands → expression w e
  statement_operand {w : World} {node e : Node} :
    statement w node → e ∈ node.operands → expression w e
  /-- The statements of a block begin in another world: they are the matter of `block`. -/
  statement_branch {w : World} {node e : Node} :
    statement w node → (∀ es, node ≠ .block es) → e ∈ node.branches → statement w e
  maxCalls_eq : settings.maxCalls = settings'.maxCalls
  calls_length {w : World} {m m' : Machine} :
    machines w m m' → m.calls.length = m'.calls.length
  /-- Values correspond only if they are the same up to the scopes of functions. -/
  unscoped_eq {w : World} {a b : Value} : values w a b → a.unscoped = b.unscoped
  scalar {w : World} {v : Value} : v.isScalar → values w v v
  literal {w : World} {j : Json} :
    expression w (.literal j) → values w (.ofJson j) (.ofJson j)
  exhausted : halts .exhausted
  raises {w : World} {node : Node} {why : Stop} :
    expression w node → node.Raises why → halts why
  notStatement {w : World} {node : Node} :
    statement w node → node.isStatement = false → halts (.broken (.statement node))
  topLevelReturn {w : World} {keyword : Mark} {e : Node} {m m' : Machine} :
    statement w (.giveBack keyword e) → machines w m m' → m.calls = [] →
      halts (.failed ⟨keyword, .topLevelReturn⟩)
  active_of_calls {w : World} {m m' : Machine} :
    machines w m m' → m.calls ≠ [] → active w
  print {w : World} (line : String) :
    Effect.Related toCorrespondence toCorrespondence.Halting toCorrespondence.Anything w
      (Effect.print line) (Effect.print line)
  report {w : World} (line : String) :
    Effect.Related toCorrespondence toCorrespondence.Halting toCorrespondence.Anything w
      (Effect.report line) (Effect.report line)
  trace {w : World} (least : Nat) (line : String) :
    Effect.Related toCorrespondence toCorrespondence.Halting toCorrespondence.Anything w
      (traceFrom least settings line) (traceFrom least settings' line)
  lookUp {w : World} {name : Mark} : expression w (.reference name) →
    Effect.Related toCorrespondence toCorrespondence.Halting values w
      (Effect.lookUp name) (Effect.lookUp name)
  assign {w : World} {name : Mark} {e : Node} {a b : Value} :
    expression w (.assign name e) → values w a b →
      Effect.Related toCorrespondence toCorrespondence.Halting toCorrespondence.Anything w
        (Effect.assign name a) (Effect.assign name b)
  declare {w : World} {name : Mark} {e : Node} {a b : Value} :
    statement w (.declare name e) → values w a b →
      Effect.Related toCorrespondence toCorrespondence.Halting toCorrespondence.Anything w
        (Effect.defineHere name a) (Effect.defineHere name b)
  declareFunction {w : World} {name : Mark} {params : List Mark} {body : List Node} :
    statement w (.function name params body) →
      Effect.Related toCorrespondence toCorrespondence.Halting values w
        (LoxLang.declareFunction settings name params body)
        (LoxLang.declareFunction settings' name params body)
  block {w : World} {execute execute' : Node → Effect Value} {statements : List Node} :
    (∀ u node, statement u node →
      Effect.Related toCorrespondence toCorrespondence.Leaving values u
        (execute node) (execute' node)) →
    statement w (.block statements) →
      Effect.Related toCorrespondence toCorrespondence.Leaving toCorrespondence.Anything w
        (executeBlock settings execute statements)
        (executeBlock settings' execute' statements)
  body {w : World} {execute execute' : Node → Effect Value} {f f' : Function}
    {arguments arguments' : List Value} :
    (∀ u node, statement u node →
      Effect.Related toCorrespondence toCorrespondence.Leaving values u
        (execute node) (execute' node)) →
    values w (.function f) (.function f') → List.Forall₂ (values w) arguments arguments' →
    arguments.length = f.arity →
      Effect.Related toCorrespondence toCorrespondence.Halting values w
        (runBody settings execute f arguments) (runBody settings' execute' f' arguments')

/-- The bound on calls in a simulation of the evaluator by itself. -/
theorem Settings.maxCalls_self (settings : Settings) : settings.maxCalls = settings.maxCalls := rfl

namespace Simulation

variable {settings settings' : Settings} (S : Simulation settings settings')
  {evaluate evaluate' execute execute' : Node → Effect Value}

/-- Expressions correspond. -/
def Expressions (evaluate evaluate' : Node → Effect Value) : Prop :=
  ∀ w e, S.expression w e →
    Effect.Related S.toCorrespondence S.Halting S.values w (evaluate e) (evaluate' e)

/-- Statements correspond. -/
def Statements (execute execute' : Node → Effect Value) : Prop :=
  ∀ w e, S.statement w e →
    Effect.Related S.toCorrespondence S.Leaving S.values w (execute e) (execute' e)

variable {S}

/-! ### One expression -/

theorem isTruthy_eq {w : S.World} {a b : Value} (h : S.values w a b) :
    a.isTruthy = b.isTruthy := by
  -- Values that differ in handles only are one value without its handles.
  rw [← Value.isTruthy_unscoped a, S.unscoped_eq h, Value.isTruthy_unscoped]

/-- A scalar, or a stop that the node raises. -/
theorem scalar_or_raise {w : S.World} {node : Node} {x : Effect Value}
    (hnode : S.expression w node)
    (h : (∃ u : Value, u.isScalar ∧ x = pure u) ∨ ∃ why, node.Raises why ∧ x = Effect.stop why) :
    Effect.Related S.toCorrespondence S.Halting S.values w x x := by
  rcases h with ⟨u, hu, rfl⟩ | ⟨why, hwhy, rfl⟩
  · exact .pure fun _ _ => S.scalar hu
  · exact .halt (S.raises hnode hwhy) hwhy.ne_returned

theorem unaryValue_related {w : S.World} {op : Mark} {e : Node} {a b : Value}
    (hnode : S.expression w (.unary op e)) (hab : S.values w a b) :
    Effect.Related S.toCorrespondence S.Halting S.values w (unaryValue op a)
      (unaryValue op b) := by
  rw [← unaryValue_unscoped op b, ← S.unscoped_eq hab, unaryValue_unscoped]
  exact scalar_or_raise hnode (unaryValue_cases op e a)

theorem binaryValue_related {w : S.World} {op : Mark} {l r : Node} {a b c d : Value}
    (hnode : S.expression w (.binary l op r)) (hab : S.values w a b) (hcd : S.values w c d) :
    Effect.Related S.toCorrespondence S.Halting S.values w (binaryValue op a c)
      (binaryValue op b d) := by
  rw [← binaryValue_unscoped op b d, ← S.unscoped_eq hab, ← S.unscoped_eq hcd,
    binaryValue_unscoped]
  exact scalar_or_raise hnode (binaryValue_cases op l r a c)

/-- The beginning of the call of a function: the trace, and the bound on calls. -/
theorem call_function (settings : Settings) (execute : Node → Effect Value) (f : Function)
    (arguments : List Value) (paren : Mark) (h : arguments.length = f.arity) :
    call settings execute (.function f) arguments paren =
      traceFrom 4 settings ("call " ++ f.name.lexeme.shown ++ "("
          ++ ", ".intercalate (arguments.map Value.display) ++ ")") >>= fun _ =>
        Effect.gets (·.calls.length) >>= fun n =>
          if settings.maxCalls ≤ n then Effect.fail paren .stackOverflow
          else runBody settings execute f arguments := by
  rw [call, if_neg (not_not.mpr h), traceFrom]
  split
  · rfl
  · rfl

theorem map_display_eq {w : S.World} {as bs : List Value}
    (h : List.Forall₂ (S.values w) as bs) : as.map Value.display = bs.map Value.display := by
  induction h with
  | nil => rfl
  | cons hab _ ih =>
    rw [List.map_cons, List.map_cons, ih, ← Value.display_unscoped, S.unscoped_eq hab,
      Value.display_unscoped]

theorem call_related {w : S.World} {callee : Node} {paren : Mark} {nodes : List Node}
    {a b : Value} {as bs : List Value} (hexecute : S.Statements execute execute')
    (hnode : S.expression w (.call callee paren nodes)) (hab : S.values w a b)
    (hs : List.Forall₂ (S.values w) as bs) :
    Effect.Related S.toCorrespondence S.Halting S.values w (call settings execute a as paren)
      (call settings' execute' b bs paren) := by
  have raise {why : Stop} (h : (Node.call callee paren nodes).Raises why) :
      Effect.Related S.toCorrespondence S.Halting S.values w (Effect.stop why)
        (Effect.stop why) := .halt (S.raises hnode h) h.ne_returned
  cases a with
  | function f =>
    -- The other value is a function with the same name and parameters.
    obtain ⟨g, rfl, -, hname, hparams, -⟩ :=
      Value.unscoped_eq_function (S.unscoped_eq hab).symm
    have harity : g.arity = f.arity := congrArg List.length hparams
    have hlength := hs.length_eq
    by_cases hcount : as.length = f.arity
    · rw [call_function _ _ f as _ hcount,
        call_function _ _ g bs _ (by rw [← hlength, hcount, harity]), hname,
        ← map_display_eq hs, ← S.maxCalls_eq]
      refine .bind (S.trace 4 _) ?_
      intro u hu _ _ _
      refine .bind (.gets (fun v _ m m' hm => S.calls_length hm)) ?_
      intro v hv n n' hn
      obtain rfl : n = n' := hn
      -- As many calls are under way on both sides, so the bound is reached on both or neither.
      by_cases hmax : settings.maxCalls ≤ n
      · rw [if_pos hmax, if_pos hmax]
        exact (raise .stackOverflow).mono (S.le_trans hu hv)
      · rw [if_neg hmax, if_neg hmax]
        exact (S.body hexecute hab hs hcount).mono (S.le_trans hu hv)
    · rw [call, call, if_pos hcount, if_pos (by rw [← hlength, harity]; exact hcount), harity,
        ← hlength]
      exact raise (.argumentCount (Ne.symm hcount))
  | nil | bool _ | number _ | text _ | integer _ | list _ | record _ =>
    cases b with
    | function g => simpa [Value.unscoped] using S.unscoped_eq hab
    | nil | bool _ | number _ | text _ | integer _ | list _ | record _ =>
      exact raise .notCallable

/-- What a node does when it is evaluated corresponds, given that this is so for the nodes
inside it. -/
theorem evaluateStep (hevaluate : S.Expressions evaluate evaluate')
    (hexecute : S.Statements execute execute') :
    S.Expressions (LoxLang.evaluateStep settings evaluate execute)
      (LoxLang.evaluateStep settings' evaluate' execute') := by
  intro w node hnode
  have operand {e : Node} (he : e ∈ node.operands) {u : S.World} (hu : S.le w u) :
      Effect.Related S.toCorrespondence S.Halting S.values u (evaluate e) (evaluate' e) :=
    hevaluate u e (S.expression_operand (S.expression_mono hu hnode) he)
  have notExpression (h : node.isExpression = false) :
      Effect.Related S.toCorrespondence S.Halting S.values w
        (Effect.stop (.broken (.expression node))) (Effect.stop (.broken (.expression node))) :=
    .halt (S.raises hnode (.notExpression h)) (by simp)
  cases node with
  | literal j => exact .pure fun u hu => S.values_mono hu (S.literal hnode)
  | grouping e => exact operand (by simp [Node.operands]) (S.le_refl w)
  | reference name => exact S.lookUp hnode
  | assign name e =>
    refine .bind (operand (by simp [Node.operands]) (S.le_refl w)) ?_
    intro u hu a b hab
    refine .bind (S.assign (S.expression_mono hu hnode) hab) ?_
    intro v hv _ _ _
    exact .pure fun z hz => S.values_mono (S.le_trans hv hz) hab
  | unary op e =>
    refine .bind (operand (by simp [Node.operands]) (S.le_refl w)) ?_
    intro u hu a b hab
    exact unaryValue_related (S.expression_mono hu hnode) hab
  | logical left op right =>
    refine .bind (operand (by simp [Node.operands]) (S.le_refl w)) ?_
    intro u hu a b hab
    rw [isTruthy_eq hab]
    split
    · exact .pure fun v hv => S.values_mono hv hab
    · exact operand (by simp [Node.operands]) hu
  | binary left op right =>
    refine .bind (operand (by simp [Node.operands]) (S.le_refl w)) ?_
    intro u hu a b hab
    refine .bind (operand (by simp [Node.operands]) hu) ?_
    intro v hv c d hcd
    exact binaryValue_related (S.expression_mono (S.le_trans hu hv) hnode)
      (S.values_mono hv hab) hcd
  | call callee paren arguments =>
    refine .bind (operand (by simp [Node.operands]) (S.le_refl w)) ?_
    intro u hu a b hab
    refine .bind (evaluateAll_related fun e he v hv =>
      operand (by simp [Node.operands, he]) (S.le_trans hu hv)) ?_
    intro v hv as bs hs
    exact call_related hexecute (S.expression_mono (S.le_trans hu hv) hnode)
      (S.values_mono hv hab) hs
  | missing | many _ | evaluate _ | print _ | declare _ _ | block _ | branch _ _ _ | loop _ _
  | function _ _ _ | giveBack _ _ => exact notExpression rfl

/-! ### One statement -/

theorem executeStep_declare (settings : Settings) (evaluate execute : Node → Effect Value)
    (rounds : Nat) (name : Mark) (e : Node) :
    LoxLang.executeStep settings evaluate execute rounds (.declare name e) =
      (if e.isMissing then pure .nil else evaluate e) >>= fun v =>
        Effect.defineHere name v >>= fun _ =>
          traceFrom 2 settings ("declare " ++ name.lexeme.shown ++ ": " ++ v.typeName ++ " = "
            ++ v.display) >>= fun _ => pure .nil := by
  have rest : ∀ v : Value, (do
      Effect.defineHere name v
      if 2 ≤ settings.level then
        Effect.trace settings.level
          ("declare " ++ name.lexeme.shown ++ ": " ++ v.typeName ++ " = " ++ v.display)
      return Value.nil : Effect Value) = Effect.defineHere name v >>= fun _ =>
          traceFrom 2 settings ("declare " ++ name.lexeme.shown ++ ": " ++ v.typeName ++ " = "
            ++ v.display) >>= fun _ => pure .nil := by
    intro v
    rw [traceFrom]
    split
    · rfl
    · rfl
  simp only [LoxLang.executeStep, ← rest]
  split
  · rfl
  · rfl

theorem executeStep_branch (settings : Settings) (evaluate execute : Node → Effect Value)
    (rounds : Nat) (condition thenBranch elseBranch : Node) :
    LoxLang.executeStep settings evaluate execute rounds
        (.branch condition thenBranch elseBranch) =
      evaluate condition >>= fun v =>
        traceFrom 3 settings ("if on line " ++ condition.line.shown ++ " -> "
          ++ verdict v.isTruthy) >>= fun _ =>
          (if v.isTruthy then execute thenBranch
            else if elseBranch.isMissing then pure .nil else execute elseBranch) >>= fun _ =>
            pure .nil := by
  simp only [LoxLang.executeStep, traceFrom]
  congr 1
  funext v
  cases v.isTruthy
  all_goals
    cases elseBranch.isMissing
    all_goals
      split
      all_goals rfl

theorem executeStep_block (settings : Settings) (evaluate execute : Node → Effect Value)
    (rounds : Nat) (statements : List Node) :
    LoxLang.executeStep settings evaluate execute rounds (.block statements) =
      executeBlock settings execute statements >>= fun _ => pure .nil := by
  funext m
  simp only [LoxLang.executeStep, executeBlock, bind, Effect.gets]
  cases Effect.pushScope m.current m with
  | done scope m => rfl
  | stopped why m => rfl

theorem executeStep_loop (settings : Settings) (evaluate execute : Node → Effect Value)
    (rounds : Nat) (condition body : Node) :
    LoxLang.executeStep settings evaluate execute rounds (.loop condition body) =
      Effect.whileTrue (Value.isTruthy <$> evaluate condition) (execute body >>= fun _ => pure ())
          rounds >>= fun _ =>
        traceFrom 3 settings ("while on line " ++ condition.line.shown ++ " finished") >>=
          fun _ => pure .nil := by
  rw [LoxLang.executeStep, traceFrom]
  split
  · rfl
  · rfl

theorem executeStep_giveBack (settings : Settings) (evaluate execute : Node → Effect Value)
    (rounds : Nat) (keyword : Mark) (e : Node) (m : Machine) :
    LoxLang.executeStep settings evaluate execute rounds (.giveBack keyword e) m =
      if m.calls = [] then Effect.fail keyword .topLevelReturn m
      else ((if e.isMissing then pure .nil else evaluate e) >>= fun v =>
        Effect.stop (.returned v)) m := by
  have h : LoxLang.executeStep settings evaluate execute rounds (.giveBack keyword e) m =
      (if m.calls.isEmpty then Effect.fail keyword .topLevelReturn
        else if e.isMissing then pure .nil >>= fun v => Effect.stop (.returned v)
        else evaluate e >>= fun v => Effect.stop (.returned v)) m := rfl
  rw [h]
  cases m.calls with
  | nil => rfl
  | cons f fs =>
    have hempty : ¬(f :: fs).isEmpty = true := by simp
    rw [if_neg hempty, if_neg (List.cons_ne_nil f fs)]
    split
    · rfl
    · rfl

/-- An initializer, or nil where there is none. -/
theorem initializer_related {w : S.World} {node e : Node} (hnode : S.statement w node)
    (hoperands : e.ifPresent ⊆ node.operands) (hevaluate : S.Expressions evaluate evaluate') :
    Effect.Related S.toCorrespondence S.Leaving S.values w
      (if e.isMissing then pure .nil else evaluate e)
      (if e.isMissing then pure .nil else evaluate' e) := by
  cases h : e.isMissing with
  | true => exact .pure fun _ _ => S.scalar rfl
  | false =>
    have he := hoperands (Node.mem_ifPresent h)
    exact (hevaluate w e (S.statement_operand hnode he)).leaving

/-- What a node does when it is executed corresponds, given that this is so for the nodes
inside it. -/
theorem executeStep (hevaluate : S.Expressions evaluate evaluate')
    (hexecute : S.Statements execute execute') (rounds : Nat) :
    S.Statements (LoxLang.executeStep settings evaluate execute rounds)
      (LoxLang.executeStep settings' evaluate' execute' rounds) := by
  intro w node hnode
  have operand {e : Node} (he : e ∈ node.operands) {u : S.World} (hu : S.le w u) :
      Effect.Related S.toCorrespondence S.Leaving S.values u (evaluate e) (evaluate' e) :=
    (hevaluate u e (S.statement_operand (S.statement_mono hu hnode) he)).leaving
  have branch {e : Node} (hblock : ∀ es, node ≠ .block es) (he : e ∈ node.branches)
      {u : S.World} (hu : S.le w u) :
      Effect.Related S.toCorrespondence S.Leaving S.values u (execute e) (execute' e) :=
    hexecute u e (S.statement_branch (S.statement_mono hu hnode) hblock he)
  have nil {u : S.World} : Effect.Related S.toCorrespondence S.Leaving S.values u
      (pure .nil) (pure .nil) := .pure fun _ _ => S.scalar rfl
  have notStatement (h : node.isStatement = false) :
      Effect.Related S.toCorrespondence S.Leaving S.values w
        (Effect.stop (.broken (.statement node))) (Effect.stop (.broken (.statement node))) :=
    (Effect.Related.halt (S.notStatement hnode h) (by simp)).leaving
  cases node with
  | evaluate e => exact operand (by simp [Node.operands]) (S.le_refl w)
  | print e =>
    refine .bind (operand (by simp [Node.operands]) (S.le_refl w)) ?_
    intro u hu a b hab
    rw [← Value.display_unscoped a, S.unscoped_eq hab, Value.display_unscoped]
    exact .seq (S.print _).leaving fun v hv _ _ => nil
  | declare name e =>
    rw [executeStep_declare, executeStep_declare]
    refine .bind (initializer_related hnode (by simp [Node.operands]) hevaluate) ?_
    intro u hu a b hab
    refine .seq (S.declare (S.statement_mono hu hnode) hab).leaving ?_
    intro v hv _ _
    rw [← Value.display_unscoped a, ← Value.typeName_unscoped a, S.unscoped_eq hab,
      Value.display_unscoped, Value.typeName_unscoped]
    exact .seq (S.trace 2 _).leaving fun z hz _ _ => nil
  | block statements =>
    rw [executeStep_block, executeStep_block]
    exact .seq (S.block hexecute hnode) fun u hu _ _ => nil
  | branch condition thenBranch elseBranch =>
    rw [executeStep_branch, executeStep_branch]
    refine .bind (operand (by simp [Node.operands]) (S.le_refl w)) ?_
    intro u hu a b hab
    rw [isTruthy_eq hab]
    refine .seq (S.trace 3 _).leaving ?_
    intro v hv _ _
    have huv := S.le_trans hu hv
    refine .seq ?_ fun _ _ _ _ => nil
    split
    · exact (branch (by simp) (by simp [Node.branches]) huv).anything
    · split
      · exact .pure fun _ _ => trivial
      · refine (branch (by simp) ?_ huv).anything
        simp [Node.branches, Node.mem_ifPresent (Bool.eq_false_iff.mpr ‹_›)]
  | loop condition body =>
    rw [executeStep_loop, executeStep_loop]
    refine .seq (.whileTrue ?_ ?_ (fun _ => .inl ⟨rfl, S.exhausted, by simp⟩) rounds) ?_
    · intro u hu
      exact (operand (by simp [Node.operands]) hu).map fun _ _ _ h => isTruthy_eq h
    · intro u hu
      exact .bind (branch (by simp) (by simp [Node.branches]) hu) fun _ _ _ _ _ => .pure fun _ _ => trivial
    · intro u hu _ _
      exact .seq (S.trace 3 _).leaving fun v hv _ _ => nil
  | function name params body => exact (S.declareFunction hnode).leaving
  | giveBack keyword e =>
    intro u hu m m' hm
    have hnode' := S.statement_mono hu hnode
    rw [executeStep_giveBack, executeStep_giveBack]
    -- Either no call is under way on either side, or one is on both.
    by_cases hcalls : m.calls = []
    · have hcalls' : m'.calls = [] := by
        rw [← List.length_eq_zero_iff, ← S.calls_length hm, hcalls, List.length_nil]
      rw [if_pos hcalls, if_pos hcalls']
      exact .stopped (S.le_refl u) hm (.inl ⟨rfl, S.topLevelReturn hnode' hm hcalls, by simp⟩)
    · have hcalls' : m'.calls ≠ [] := by
        rwa [← List.length_pos_iff, ← S.calls_length hm, List.length_pos_iff]
      rw [if_neg hcalls, if_neg hcalls']
      have hactive := S.active_of_calls hm hcalls
      refine Effect.Related.bind (initializer_related hnode' (by simp [Node.operands]) hevaluate)
        ?_ u (S.le_refl u) m m' hm
      intro v hv a b hab
      refine .stop fun z hz => .inr ⟨a, b, rfl, rfl, ?_, S.values_mono hz hab⟩
      exact S.active_mono (S.le_trans hv hz) hactive
  | missing | many _ | literal _ | grouping _ | unary _ _ | binary _ _ _ | logical _ _ _
  | reference _ | assign _ _ | call _ _ _ => exact notStatement rfl

/-! ### Whole evaluations and executions -/

theorem upTo (S : Simulation settings settings') (n : Nat) :
    S.Expressions (evaluateUpTo settings n) (evaluateUpTo settings' n) ∧
      S.Statements (executeUpTo settings n) (executeUpTo settings' n) := by
  induction n with
  | zero =>
    constructor
    · intro w e _ u _ m m' hm
      exact .stopped (S.le_refl u) hm ⟨rfl, S.exhausted, by simp⟩
    · intro w e _ u _ m m' hm
      exact .stopped (S.le_refl u) hm (.inl ⟨rfl, S.exhausted, by simp⟩)
  | succ n ih => exact ⟨S.evaluateStep ih.1 ih.2, S.executeStep ih.1 ih.2 n⟩

/-- Evaluating an expression corresponds, whatever the bound. -/
theorem evaluateUpTo (S : Simulation settings settings') (n : Nat) :
    S.Expressions (LoxLang.evaluateUpTo settings n) (LoxLang.evaluateUpTo settings' n) :=
  (S.upTo n).1

/-- Executing a statement corresponds, whatever the bound. -/
theorem executeUpTo (S : Simulation settings settings') (n : Nat) :
    S.Statements (LoxLang.executeUpTo settings n) (LoxLang.executeUpTo settings' n) :=
  (S.upTo n).2

end Simulation

end LoxLang
