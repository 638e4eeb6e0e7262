/-
What a machine asks of its arena.

An effect is `Recorded` if it gives, next to how it ends, the operations on scopes that it has asked
for, in order.  The one way in which a recorded effect has to do with scopes is `Recorded.ask`,
which notes an operation and performs it; all else is an effect that asks nothing
(`Recorded.silent`).  From these the evaluator is put together once more, node by node, as it is put
together from plain effects.

Without its record each recorded effect is the plain one (`Recorded.erase_evaluateUpTo`,
`erase_executeUpTo`, `Request.erase_recorded`), so that a recorded session ends as the session does
(`recordedSession_outcomes`).
-/
import LoxLang.Proofs.Machine.Pins

namespace LoxLang

/-! ### Recorded effects -/

/-- The operations that have been asked for, and how it has ended. -/
structure Record (α : Type) where
  asked : List (Arena.Operation Key Value)
  outcome : Outcome α

/-- An effect of which it is recorded what it asks of the arena. -/
def Recorded (α : Type) : Type := Machine → Record α

/-- The handle that an operation gives. -/
def Arena.Answer.theHandle : Arena.Answer Key Value → Handle
  | .handle h => h
  | _ => Arena.globals

/-- The value that an operation gives. -/
def Arena.Answer.theValue : Arena.Answer Key Value → Value
  | .value v => v
  | _ => .nil

/-- A runtime error as a result. -/
def Effect.attempt {α : Type} (x : Effect α) : Effect (Except RuntimeError α) := fun m =>
  match x m with
  | .done a m => .done (.ok a) m
  | .stopped (.failed e) m => .done (.error e) m
  | .stopped why m => .stopped why m

namespace Recorded

variable {α β : Type}

/-- The effect without its record. -/
def erase (x : Recorded α) : Effect α := fun m => (x m).outcome

/-- What is asked for by one effect after another. -/
instance : Monad Recorded where
  pure a := fun m => ⟨[], .done a m⟩
  bind x f := fun m => match x m with
    | ⟨asked, .done a m⟩ => ⟨asked ++ (f a m).asked, (f a m).outcome⟩
    | ⟨asked, .stopped why m⟩ => ⟨asked, .stopped why m⟩

/-- An effect that asks nothing. -/
def silent (x : Effect α) : Recorded α := fun m => ⟨[], x m⟩

/-- Asks for an operation; a refusal breaks the run off. -/
def ask (op : Arena.Operation Key Value) (read : Arena.Answer Key Value → α) : Recorded α :=
  fun m => ⟨[op], Effect.onArena (fun a => (a.apply op).map id (·.map read)) m⟩

/-- The same is asked for, but how it ends is seen in another way. -/
def via (view : Effect α → Effect β) (x : Recorded α) : Recorded β := fun m =>
  ⟨(x m).asked, view x.erase m⟩

/-- One effect, and another one after it however the first one ends. -/
def ensuring (x : Recorded α) (last : Recorded Unit) : Recorded α := fun m =>
  ⟨(x m).asked ++ (last (x m).outcome.machine).asked, Effect.ensuring x.erase last.erase m⟩

/-- Repeats an effect as long as a condition holds, at most `n` times. -/
def whileTrue (condition : Recorded Bool) (body : Recorded Unit) : Nat → Recorded Unit
  | 0 => silent (Effect.stop .exhausted)
  | n + 1 => do
    if ← condition then
      body
      whileTrue condition body n
    else return ()

/-! ### The evaluator, recorded -/

/-- Binds a name in a scope. -/
def define (h : Handle) (name : Mark) (v : Value) : Recorded Unit := do
  let k ← silent (Effect.key name)
  ask (.define h k v) fun _ => ()

/-- Binds a name in the current scope. -/
def defineHere (name : Mark) (v : Value) : Recorded Unit := do
  let h ← silent (Effect.gets (·.current))
  define h name v

/-- The value of a name. -/
def lookUp (name : Mark) : Recorded Value := do
  let k ← silent (Effect.key name)
  let h ← silent (Effect.gets (·.current))
  via (Effect.blaming name) (ask (.get h k) (·.theValue))

/-- Binds a name anew in the nearest scope that binds it. -/
def assign (name : Mark) (v : Value) : Recorded Unit := do
  let k ← silent (Effect.key name)
  let h ← silent (Effect.gets (·.current))
  via (Effect.blaming name) (ask (.assign h k v) fun _ => ())

/-- Leaves a scope. -/
def leaveScope (settings : Settings) (previous left : Handle) : Recorded Unit := do
  silent (Effect.modify fun m => { m with current := previous })
  if settings.reclaim then ask (.release left) fun _ => ()

/-- Executes statements one after the other. -/
def executeAll (execute : Node → Recorded Value) : List Node → Recorded Unit
  | [] => return ()
  | statement :: rest => do
    let _ ← execute statement
    executeAll execute rest

/-- Executes statements in a scope of their own, which is left however they end. -/
def executeIn (settings : Settings) (execute : Node → Recorded Value) (statements : List Node)
    (scope : Handle) : Recorded Unit := do
  let previous ← silent (Effect.gets (·.current))
  ensuring
    (do
      silent (Effect.modify fun m => { m with current := scope })
      executeAll execute statements)
    (leaveScope settings previous scope)

/-- The values of some expressions, from left to right. -/
def evaluateAll (evaluate : Node → Recorded Value) : List Node → Recorded (List Value)
  | [] => return []
  | e :: rest => do
    let v ← evaluate e
    let vs ← evaluateAll evaluate rest
    return v :: vs

/-- Binds the parameters of a function to the arguments of a call. -/
def bindParameters (scope : Handle) : List Mark → List Value → Recorded Unit
  | name :: names, v :: vs => do
    define scope name v
    bindParameters scope names vs
  | _, _ => return ()

/-- The beginning of a call: a scope with the arguments, and one more call under way. -/
def openCall (f : Function) (arguments : List Value) : Recorded Handle := do
  let scope ← ask (.push (some f.closure)) (·.theHandle)
  bindParameters scope f.params arguments
  silent (Effect.modify fun m => { m with calls := f :: m.calls })
  return scope

/-- The rest of a call: its body, and one call less under way however the body ends. -/
def closeCall (settings : Settings) (execute : Node → Recorded Value) (f : Function)
    (scope : Handle) : Recorded Value :=
  ensuring (via catchReturned (executeIn settings execute f.body scope))
    (silent (Effect.modify fun m => { m with calls := m.calls.tail }))

/-- Calls a value with arguments. -/
def call (settings : Settings) (execute : Node → Recorded Value) (callee : Value)
    (arguments : List Value) (paren : Mark) : Recorded Value :=
  match callee with
  | .function f =>
    if arguments.length ≠ f.arity then
      silent (Effect.fail paren (.argumentCount f.arity arguments.length))
    else do
      silent (traceFrom 4 settings ("call " ++ f.name.lexeme.shown ++ "("
        ++ ", ".intercalate (arguments.map Value.display) ++ ")"))
      let n ← silent (Effect.gets (·.calls.length))
      if settings.maxCalls ≤ n then silent (Effect.fail paren .stackOverflow)
      else do
        let scope ← openCall f arguments
        closeCall settings execute f scope
  | _ => silent (Effect.fail paren .notCallable)

/-- What an expression does. -/
def evaluateStep (settings : Settings) (evaluate execute : Node → Recorded Value) :
    Node → Recorded Value
  | .literal v => return .ofJson v
  | .grouping inner => evaluate inner
  | .reference name => lookUp name
  | .assign name e => do
    let v ← evaluate e
    assign name v
    return v
  | .unary operator e => do
    let v ← evaluate e
    silent (unaryValue operator v)
  | .logical left operator right => do
    let v ← evaluate left
    if v.isTruthy == (operator.kind == .orWord) then return v
    else evaluate right
  | .binary left operator right => do
    let v ← evaluate left
    let w ← evaluate right
    silent (binaryValue operator v w)
  | .call callee paren arguments => do
    let f ← evaluate callee
    let vs ← evaluateAll evaluate arguments
    call settings execute f vs paren
  | node => silent (Effect.stop (.broken (.expression node)))

/-- The value of a part, and nil if it is left out. -/
def valueOf (evaluate : Node → Recorded Value) (e : Node) : Recorded Value :=
  if e.isMissing then pure .nil else evaluate e

/-- Declares a function. -/
def declareFunction (settings : Settings) (name : Mark) (params : List Mark) (body : List Node) :
    Recorded Value := do
  let closure ← silent (Effect.gets Machine.closure)
  ask (.pin closure) fun _ => ()
  let id ← silent (Effect.gets (·.nextId))
  silent (Effect.modify fun m => { m with nextId := id + 1 })
  defineHere name (.function ⟨id, name, params, body, closure⟩)
  silent (traceFrom 2 settings ("define function " ++ name.lexeme.shown))
  return .nil

/-- What a statement does. -/
def executeStep (settings : Settings) (evaluate execute : Node → Recorded Value) (rounds : Nat) :
    Node → Recorded Value
  | .evaluate e => evaluate e
  | .print e => do
    let v ← evaluate e
    silent (Effect.print v.display)
    return .nil
  | .declare name initializer => do
    let v ← valueOf evaluate initializer
    defineHere name v
    silent (traceFrom 2 settings
      ("declare " ++ name.lexeme.shown ++ ": " ++ v.typeName ++ " = " ++ v.display))
    return .nil
  | .block statements => do
    let current ← silent (Effect.gets (·.current))
    let scope ← ask (.push (some current)) (·.theHandle)
    executeIn settings execute statements scope
    return .nil
  | .branch condition thenBranch elseBranch => do
    let v ← evaluate condition
    silent (traceFrom 3 settings
      ("if on line " ++ condition.line.shown ++ " -> " ++ verdict v.isTruthy))
    let _ ← (if v.isTruthy then execute thenBranch else valueOf execute elseBranch : Recorded Value)
    return .nil
  | .loop condition body => do
    whileTrue (Value.isTruthy <$> evaluate condition) (do let _ ← execute body) rounds
    silent (traceFrom 3 settings ("while on line " ++ condition.line.shown ++ " finished"))
    return .nil
  | .function name params body => declareFunction settings name params body
  | .giveBack keyword e => do
    let calls ← silent (Effect.gets (·.calls))
    if calls.isEmpty then silent (Effect.fail keyword .topLevelReturn)
    else do
      let v ← valueOf evaluate e
      silent (Effect.stop (.returned v))
  | node => silent (Effect.stop (.broken (.statement node)))

mutual

/-- Evaluates an expression with at most `n` nested steps. -/
def evaluateUpTo (settings : Settings) : Nat → Node → Recorded Value
  | 0, _ => silent (Effect.stop .exhausted)
  | n + 1, node => evaluateStep settings (evaluateUpTo settings n) (executeUpTo settings n) node

/-- Executes a statement with at most `n` nested steps. -/
def executeUpTo (settings : Settings) : Nat → Node → Recorded Value
  | 0, _ => silent (Effect.stop .exhausted)
  | n + 1, node =>
    executeStep settings (evaluateUpTo settings n) (executeUpTo settings n) n node

end

/-- Executes statements until one has a runtime error. -/
def executeFrom (execute : Node → Recorded Value) :
    List Node → Value → Recorded (Value × Option RuntimeError)
  | [], last => return (last, none)
  | statement :: rest, last => do
    match ← via Effect.attempt (execute statement) with
    | .ok v => executeFrom execute rest v
    | .error e => return (last, some e)

/-- Runs the statements of a program. -/
def run (settings : Settings) (statements : List Node) : Recorded Completion := do
  silent (Effect.trace settings.level ("run " ++ toString statements.length ++ " statement(s)"))
  let x ← executeFrom (executeUpTo settings settings.patience) statements .nil
  silent (Simulation.finishRun settings x)

end Recorded

/-- Runs what is asked for. -/
def Request.recorded (settings : Settings) : Request → Recorded Completion
  | .source text => do
    let p := Program.ofSource text
    Recorded.silent (reportAll p.heard)
    if p.ok then Recorded.run settings p.statements else return ⟨p.errors, none, .nil⟩
  | .tree (.many statements) => Recorded.run settings statements
  | .tree _ => Recorded.silent (Effect.stop (.broken .program))

/-- All that is asked for in the course of some runs, one after the other on one machine, and how
each of them ends. -/
def recordedSession (settings : Settings) :
    List Request → Machine → List (Arena.Operation Key Value) × List (Outcome Completion)
  | [], _ => ([], [])
  | request :: rest, m =>
    let record := request.recorded settings m
    let (asked, outcomes) := recordedSession settings rest record.outcome.machine
    (record.asked ++ asked, record.outcome :: outcomes)

/-! ### Without the record -/

namespace Recorded

variable {α β : Type}

theorem erase_pure (a : α) : (pure a : Recorded α).erase = pure a := rfl

theorem erase_bind (x : Recorded α) (f : α → Recorded β) :
    (x >>= f).erase = x.erase >>= fun a => (f a).erase := by
  funext m
  simp only [erase, bind]
  rcases x m with ⟨asked, ⟨a, n⟩ | ⟨why, n⟩⟩
  · rfl
  · rfl

theorem erase_map (f : α → β) (x : Recorded α) : (f <$> x).erase = f <$> x.erase := erase_bind x _

theorem erase_silent (x : Effect α) : (silent x).erase = x := rfl

theorem erase_ite (c : Prop) [Decidable c] (x y : Recorded α) :
    (if c then x else y).erase = if c then x.erase else y.erase :=
  apply_ite erase c x y

theorem erase_via (view : Effect α → Effect β) (x : Recorded α) :
    (via view x).erase = view x.erase := rfl

theorem erase_ensuring (x : Recorded α) (last : Recorded Unit) :
    (ensuring x last).erase = Effect.ensuring x.erase last.erase := rfl

/-- An operation that is asked for is performed. -/
theorem erase_ask {op : Arena.Operation Key Value} {read : Arena.Answer Key Value → α}
    {f : Arena Key Value → Arena Key Value × Except Refusal α}
    (h : ∀ a, (a.apply op).map id (·.map read) = f a) : (ask op read).erase = Effect.onArena f :=
  congrArg Effect.onArena (funext h)

theorem map_done (r : Except Refusal Unit) :
    (r.map fun _ => (.done : Arena.Answer Key Value)).map (fun _ => ()) = r := by
  cases r <;> rfl

theorem erase_push (p : Handle) :
    (ask (.push (some p)) (·.theHandle)).erase = Effect.pushScope p :=
  erase_ask fun _ => rfl

theorem erase_release (h : Handle) : (ask (.release h) fun _ => ()).erase = Effect.releaseScope h :=
  erase_ask fun a => Prod.ext rfl (map_done (a.release h).2)

theorem erase_pin (h : Handle) : (ask (.pin h) fun _ => ()).erase = Effect.pinScope h :=
  erase_ask fun a => Prod.ext rfl (map_done (a.pin h).2)

theorem erase_define (h : Handle) (name : Mark) (v : Value) :
    (define h name v).erase = Effect.define h name v := by
  rw [define, erase_bind, erase_silent, Effect.define]
  congr 1
  funext k
  exact erase_ask fun a => Prod.ext rfl (map_done (a.define h k v).2)

theorem erase_defineHere (name : Mark) (v : Value) :
    (defineHere name v).erase = Effect.defineHere name v := by
  simp only [defineHere, erase_bind, erase_silent, erase_define, Effect.defineHere]

theorem erase_get (h : Handle) (k : Key) :
    (ask (.get h k) (·.theValue)).erase = Effect.onArena fun a => (a, a.get h k) :=
  erase_ask fun a => Prod.ext rfl (by
    show ((a.get h k).map Arena.Answer.value).map Arena.Answer.theValue = a.get h k
    cases a.get h k <;> rfl)

theorem erase_lookUp (name : Mark) : (lookUp name).erase = Effect.lookUp name := by
  simp only [lookUp, erase_bind, erase_silent, erase_via, erase_get, Effect.lookUp]

theorem erase_assign (name : Mark) (v : Value) : (assign name v).erase = Effect.assign name v := by
  have hask (h : Handle) (k : Key) :
      (ask (.assign h k v) fun _ => ()).erase = Effect.onArena fun a => a.assign h k v :=
    erase_ask fun a => Prod.ext rfl (map_done (a.assign h k v).2)
  simp only [assign, erase_bind, erase_silent, erase_via, hask, Effect.assign]

theorem erase_leaveScope (settings : Settings) (previous left : Handle) :
    (leaveScope settings previous left).erase = LoxLang.leaveScope settings previous left := by
  simp only [leaveScope, erase_bind, erase_silent, erase_ite, erase_release, erase_pure,
    LoxLang.leaveScope]

theorem erase_whileTrue (condition : Recorded Bool) (body : Recorded Unit) (n : Nat) :
    (whileTrue condition body n).erase = Effect.whileTrue condition.erase body.erase n := by
  induction n with
  | zero => rfl
  | succ n ih =>
    simp only [whileTrue, erase_bind, erase_ite, erase_pure, ih, Effect.whileTrue_succ]

section

variable (settings : Settings) (evaluate execute : Node → Recorded Value)

theorem erase_executeAll (es : List Node) : (executeAll execute es).erase
    = LoxLang.executeAll (fun e => (execute e).erase) es := by
  induction es with
  | nil => rfl
  | cons e rest ih => simp only [executeAll, erase_bind, ih, LoxLang.executeAll]

theorem erase_executeIn (es : List Node) (scope : Handle) :
    (executeIn settings execute es scope).erase
      = LoxLang.executeIn settings (fun e => (execute e).erase) es scope := by
  simp only [executeIn, erase_bind, erase_silent, erase_ensuring, erase_executeAll,
    erase_leaveScope, LoxLang.executeIn]

theorem erase_evaluateAll (es : List Node) : (evaluateAll evaluate es).erase
    = LoxLang.evaluateAll (fun e => (evaluate e).erase) es := by
  induction es with
  | nil => rfl
  | cons e rest ih => simp only [evaluateAll, erase_bind, ih, erase_pure, LoxLang.evaluateAll]

theorem erase_bindParameters (scope : Handle) (names : List Mark) (values : List Value) :
    (bindParameters scope names values).erase
      = LoxLang.bindParameters scope names values := by
  induction names generalizing values with
  | nil => rfl
  | cons name names ih =>
    cases values with
    | nil => rfl
    | cons v values =>
      simp only [bindParameters, erase_bind, erase_define, ih, LoxLang.bindParameters]

theorem erase_openCall (f : Function) (arguments : List Value) :
    (openCall f arguments).erase = LoxLang.openCall f arguments := by
  simp only [openCall, erase_bind, erase_push, erase_bindParameters, erase_silent, erase_pure,
    LoxLang.openCall]

theorem erase_closeCall (f : Function) (scope : Handle) :
    (closeCall settings execute f scope).erase
      = LoxLang.closeCall settings (fun e => (execute e).erase) f scope := by
  simp only [closeCall, erase_ensuring, erase_via, erase_executeIn, erase_silent, LoxLang.closeCall]

theorem erase_call (callee : Value) (arguments : List Value) (paren : Mark) :
    (call settings execute callee arguments paren).erase
      = LoxLang.call settings (fun e => (execute e).erase) callee arguments paren := by
  cases callee with
  | function f =>
    by_cases hcount : arguments.length = f.arity
    · rw [Simulation.call_function settings _ f arguments paren hcount, call,
        if_neg (not_not.mpr hcount)]
      simp only [erase_bind, erase_silent, erase_ite, erase_openCall, erase_closeCall, runBody_eq]
    · rw [call, LoxLang.call, if_pos hcount, if_pos hcount, erase_silent]
  | _ => rfl

theorem erase_evaluateStep (node : Node) :
    (evaluateStep settings evaluate execute node).erase
      = LoxLang.evaluateStep settings (fun e => (evaluate e).erase) (fun e => (execute e).erase)
          node := by
  cases node with
  | assign name e =>
    simp only [evaluateStep, erase_bind, erase_assign, erase_pure, LoxLang.evaluateStep]
  | reference name => exact erase_lookUp name
  | call callee paren arguments =>
    simp only [evaluateStep, erase_bind, erase_evaluateAll, erase_call, LoxLang.evaluateStep]
  | unary op e | binary e op f =>
    simp only [evaluateStep, erase_bind, erase_silent, LoxLang.evaluateStep]
  | logical e op f =>
    simp only [evaluateStep, erase_bind, erase_ite, erase_pure, LoxLang.evaluateStep]
  | _ => rfl

theorem erase_valueOf (e : Node) : (valueOf evaluate e).erase
    = if e.isMissing then pure .nil else (evaluate e).erase :=
  erase_ite _ _ _

theorem erase_declareFunction (name : Mark) (params : List Mark) (body : List Node) :
    (declareFunction settings name params body).erase
      = LoxLang.declareFunction settings name params body := by
  rw [declareFunction_eq]
  simp only [declareFunction, erase_bind, erase_silent, erase_pin, erase_defineHere, erase_pure]

theorem erase_executeStep (rounds : Nat) (node : Node) :
    (executeStep settings evaluate execute rounds node).erase
      = LoxLang.executeStep settings (fun e => (evaluate e).erase) (fun e => (execute e).erase)
          rounds node := by
  cases node with
  | print e => simp only [executeStep, erase_bind, erase_silent, erase_pure, LoxLang.executeStep]
  | declare name e =>
    simp only [executeStep, erase_bind, erase_valueOf, erase_silent, erase_defineHere, erase_pure,
      Simulation.executeStep_declare]
  | block es =>
    simp only [executeStep, erase_bind, erase_silent, erase_push, erase_executeIn, erase_pure,
      Simulation.executeStep_block, executeBlock, Effect.bind_assoc]
  | branch e f g =>
    simp only [executeStep, erase_bind, erase_ite, erase_valueOf, erase_silent, erase_pure,
      Simulation.executeStep_branch]
  | loop e f =>
    simp only [executeStep, erase_bind, erase_whileTrue, erase_map, erase_silent, erase_pure,
      Simulation.executeStep_loop]
  | function name params body => exact erase_declareFunction settings name params body
  | giveBack keyword e =>
    funext m
    rw [Simulation.executeStep_giveBack, ← erase_valueOf]
    simp only [executeStep, erase_bind, erase_ite, erase_silent]
    show (if m.calls.isEmpty then Effect.fail keyword .topLevelReturn
      else (valueOf evaluate e).erase >>= fun v => Effect.stop (.returned v)) m = _
    cases m.calls with
    | nil => rfl
    | cons f fs => rfl
  | _ => rfl

end

mutual

theorem erase_evaluateUpTo (settings : Settings) : (n : Nat) → (node : Node) →
    (evaluateUpTo settings n node).erase = LoxLang.evaluateUpTo settings n node
  | 0, _ => rfl
  | n + 1, node => by
    funext m
    rw [evaluateUpTo, erase_evaluateStep, LoxLang.evaluateUpTo]
    simp only [erase_evaluateUpTo settings n, erase_executeUpTo settings n]

theorem erase_executeUpTo (settings : Settings) : (n : Nat) → (node : Node) →
    (executeUpTo settings n node).erase = LoxLang.executeUpTo settings n node
  | 0, _ => rfl
  | n + 1, node => by
    funext m
    rw [executeUpTo, erase_executeStep, LoxLang.executeUpTo]
    simp only [erase_evaluateUpTo settings n, erase_executeUpTo settings n]

end

theorem erase_executeFrom (execute : Node → Recorded Value) (es : List Node) (last : Value) :
    (executeFrom execute es last).erase
      = LoxLang.executeFrom (fun e => (execute e).erase) es last := by
  induction es generalizing last with
  | nil => rfl
  | cons e rest ih =>
    funext m
    rw [executeFrom, erase_bind, erase_via, LoxLang.executeFrom]
    beta_reduce
    cases h : (execute e).erase m with
    | done v n =>
      have hattempt : Effect.attempt (execute e).erase m = .done (.ok v) n := by
        rw [Effect.attempt, h]
      rw [Effect.bind_of_done hattempt]
      exact congrFun (ih v) n
    | stopped why n =>
      cases why with
      | failed error =>
        have hattempt : Effect.attempt (execute e).erase m = .done (.error error) n := by
          rw [Effect.attempt, h]
        rw [Effect.bind_of_done hattempt]
        rfl
      | returned _ | broken _ | exhausted =>
        exact Effect.bind_of_stopped (by rw [Effect.attempt, h])

theorem erase_run (settings : Settings) (statements : List Node) :
    (run settings statements).erase = LoxLang.run settings statements := by
  rw [Simulation.run_eq_runWith]
  simp only [run, erase_bind, erase_silent, erase_executeFrom, erase_executeUpTo,
    Simulation.runWith]

end Recorded

theorem Request.erase_recorded (settings : Settings) (request : Request) :
    (request.recorded settings).erase = request.run settings := by
  cases request with
  | source text =>
    simp only [recorded, Recorded.erase_bind, Recorded.erase_silent, Recorded.erase_ite,
      Recorded.erase_run, Recorded.erase_pure]
    rfl
  | tree node =>
    cases node with
    | many es => exact Recorded.erase_run settings es
    | _ => rfl

/-- A recorded session ends as the session does. -/
theorem recordedSession_outcomes (settings : Settings) (requests : List Request) (m : Machine) :
    (recordedSession settings requests m).2 = session settings requests m := by
  induction requests generalizing m with
  | nil => rfl
  | cons request rest ih =>
    have houtcome : (request.recorded settings m).outcome = request.run settings m :=
      congrFun (request.erase_recorded settings) m
    simp only [recordedSession, houtcome, ih, session]

end LoxLang
