/-
Evaluating expressions and executing statements.

`evaluateStep` and `executeStep` say what each sort of node does, given how the nodes
inside it are evaluated and executed.  `evaluateUpTo` and `executeUpTo` tie the knot with a
bound on nested steps, which also bounds the rounds of each loop.

A call runs the body of a function in a new scope inside the scope that the function was
declared in.  A function that is declared while a call is under way closes over the scope
that the called function closed over, and not over the scope of the call.
-/
import LoxLang.Machine.Basic

namespace LoxLang

open Effect

/-- The value of an operator that stands before its operand. -/
def unaryValue (operator : Mark) (operand : Value) : Effect Value :=
  if operator.kind = .bang then return .bool !operand.isTruthy
  else match operand with
    | .number x => return .number (-x)
    | _ => fail operator .operand

/-- The value of an operator on two numbers. -/
def arithmetic (operator : Mark) (x y : Float) : Effect Value :=
  match operator.kind with
  | .minus => return .number (x - y)
  | .star => return .number (x * y)
  | .slash => return .number (x / y)
  | .greater => return .bool (x > y)
  | .greaterEqual => return .bool (x ≥ y)
  | .less => return .bool (x < y)
  | .lessEqual => return .bool (x ≤ y)
  | _ => fail operator (.unknownOperator operator.lexeme)

/-- The value of an operator between two operands. -/
def binaryValue (operator : Mark) (left right : Value) : Effect Value :=
  match operator.kind with
  | .equalEqual => return .bool (left.equal right)
  | .bangEqual => return .bool !left.equal right
  | .plus => match left, right with
    | .number x, .number y => return .number (x + y)
    | .text s, .text t => return .text (s ++ t)
    | _, _ => fail operator .operandsOfPlus
  | _ => match left, right with
    | .number x, .number y => arithmetic operator x y
    | _, _ => fail operator .operands

/-- Leaves a scope: goes back to the scope that was current before and gives up the one
that is left, unless the machine keeps all scopes. -/
def leaveScope (settings : Settings) (previous left : Handle) : Effect Unit := do
  modify fun m => { m with current := previous }
  if settings.reclaim then releaseScope left

/-- Executes statements one after the other. -/
def executeAll (execute : Node → Effect Value) : List Node → Effect Unit
  | [] => return ()
  | statement :: rest => do
    let _ ← execute statement
    executeAll execute rest

/-- Executes statements in a scope of their own, which is left however they end. -/
def executeIn (settings : Settings) (execute : Node → Effect Value)
    (statements : List Node) (scope : Handle) : Effect Unit := do
  let previous ← gets (·.current)
  ensuring
    (do
      modify fun m => { m with current := scope }
      executeAll execute statements)
    (leaveScope settings previous scope)

/-- The values of some expressions, from left to right. -/
def evaluateAll (evaluate : Node → Effect Value) : List Node → Effect (List Value)
  | [] => return []
  | e :: rest => do
    let v ← evaluate e
    let vs ← evaluateAll evaluate rest
    return v :: vs

/-- Binds the parameters of a function to the arguments of a call. -/
def bindParameters (scope : Handle) : List Mark → List Value → Effect Unit
  | name :: names, v :: vs => do
    define scope name v
    bindParameters scope names vs
  | _, _ => return ()

/-- Ends a call: what is given back is its value, and nil if nothing is. -/
def catchReturned (body : Effect Unit) : Effect Value := fun m =>
  match body m with
  | .done _ m => .done .nil m
  | .stopped (.returned v) m => .done v m
  | .stopped why m => .stopped why m

/-- Executes the body of a function with arguments. -/
def runBody (settings : Settings) (execute : Node → Effect Value) (f : Function)
    (arguments : List Value) : Effect Value := do
  let scope ← pushScope f.closure
  bindParameters scope f.params arguments
  modify fun m => { m with calls := f :: m.calls }
  ensuring
    (catchReturned (executeIn settings execute f.body scope))
    (modify fun m => { m with calls := m.calls.tail })

/-- Calls a value with arguments. -/
def call (settings : Settings) (execute : Node → Effect Value) (callee : Value)
    (arguments : List Value) (paren : Mark) : Effect Value :=
  match callee with
  | .function f =>
    if arguments.length ≠ f.arity then
      fail paren (.argumentCount f.arity arguments.length)
    else do
      if 4 ≤ settings.level then
        trace settings.level ("call " ++ f.name.lexeme.shown ++ "("
          ++ ", ".intercalate (arguments.map Value.display) ++ ")")
      if settings.maxCalls ≤ (← gets (·.calls)).length then fail paren .stackOverflow
      else runBody settings execute f arguments
  | _ => fail paren .notCallable

/-- What an expression does. -/
def evaluateStep (settings : Settings) (evaluate execute : Node → Effect Value) :
    Node → Effect Value
  | .literal v => return .ofJson v
  | .grouping inner => evaluate inner
  | .reference name => lookUp name
  | .assign name e => do
    let v ← evaluate e
    assign name v
    return v
  | .unary operator e => do
    let v ← evaluate e
    unaryValue operator v
  | .logical left operator right => do
    let v ← evaluate left
    if v.isTruthy == (operator.kind == .orWord) then return v
    else evaluate right
  | .binary left operator right => do
    let v ← evaluate left
    let w ← evaluate right
    binaryValue operator v w
  | .call callee paren arguments => do
    let f ← evaluate callee
    let vs ← evaluateAll evaluate arguments
    call settings execute f vs paren
  | node => stop (.broken (.expression node))

/-- The word for the outcome of a test in a trace. -/
def verdict (holds : Bool) : String := if holds then "True" else "False"

/-- Declares a function. -/
def declareFunction (settings : Settings) (name : Mark) (params : List Mark)
    (body : List Node) : Effect Value := do
  let closure ← gets fun m => match m.calls with
    | f :: _ => f.closure
    | [] => m.current
  pinScope closure
  let id ← gets (·.nextId)
  modify fun m => { m with nextId := id + 1 }
  defineHere name (.function ⟨id, name, params, body, closure⟩)
  if 2 ≤ settings.level then
    trace settings.level ("define function " ++ name.lexeme.shown)
  return .nil

/-- What a statement does.  Its result is nil, or the value of an expression statement; the
rounds of a loop are bounded. -/
def executeStep (settings : Settings) (evaluate execute : Node → Effect Value)
    (rounds : Nat) : Node → Effect Value
  | .evaluate e => evaluate e
  | .print e => do
    let v ← evaluate e
    print v.display
    return .nil
  | .declare name initializer => do
    let v ← if initializer.isMissing then pure .nil else evaluate initializer
    defineHere name v
    if 2 ≤ settings.level then
      trace settings.level
        ("declare " ++ name.lexeme.shown ++ ": " ++ v.typeName ++ " = " ++ v.display)
    return .nil
  | .block statements => do
    let scope ← pushScope (← gets (·.current))
    executeIn settings execute statements scope
    return .nil
  | .branch condition thenBranch elseBranch => do
    let v ← evaluate condition
    if 3 ≤ settings.level then
      trace settings.level
        ("if on line " ++ condition.line.shown ++ " -> " ++ verdict v.isTruthy)
    if v.isTruthy then
      let _ ← execute thenBranch
    else if !elseBranch.isMissing then
      let _ ← execute elseBranch
    return .nil
  | .loop condition body => do
    whileTrue (Value.isTruthy <$> evaluate condition) (do let _ ← execute body) rounds
    if 3 ≤ settings.level then
      trace settings.level ("while on line " ++ condition.line.shown ++ " finished")
    return .nil
  | .function name params body => declareFunction settings name params body
  | .giveBack keyword e => do
    if (← gets (·.calls)).isEmpty then fail keyword .topLevelReturn
    else
      let v ← if e.isMissing then pure .nil else evaluate e
      stop (.returned v)
  | node => stop (.broken (.statement node))

mutual

/-- Evaluates an expression with at most `n` nested steps. -/
def evaluateUpTo (settings : Settings) : Nat → Node → Machine → Outcome Value
  | 0, _, m => .stopped .exhausted m
  | n + 1, node, m =>
    evaluateStep settings (evaluateUpTo settings n) (executeUpTo settings n) node m

/-- Executes a statement with at most `n` nested steps. -/
def executeUpTo (settings : Settings) : Nat → Node → Machine → Outcome Value
  | 0, _, m => .stopped .exhausted m
  | n + 1, node, m =>
    executeStep settings (evaluateUpTo settings n) (executeUpTo settings n) n node m

end

end LoxLang
