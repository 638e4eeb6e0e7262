/-
What the evaluator is made of.

The nodes that are evaluated and executed in the course of a node, the stops that a node can
come to by itself, and what the operators do with values.  An operator looks at its operands
only up to the scopes of functions, and it gives a scalar or fails:

* `unaryValue_unscoped`, `binaryValue_unscoped`;
* `unaryValue_cases`, `binaryValue_cases`.

The effects that have to do with scopes change nothing of a machine but its arena
(`Effect.OnArena`).  A call is opened, which binds its arguments, and closed, which executes its
body (`runBody_eq`).
-/
import LoxLang.Machine.Evaluate

namespace LoxLang

/-! ### The parts of a node -/

namespace Node

/-- A part of a node as a list, which is empty if the part is left out. -/
def ifPresent (e : Node) : List Node := if e.isMissing then [] else [e]

/-- The parts that are evaluated in the course of a node. -/
def operands : Node → List Node
  | grouping e => [e]
  | unary _ e => [e]
  | binary left _ right => [left, right]
  | logical left _ right => [left, right]
  | assign _ e => [e]
  | call callee _ arguments => callee :: arguments
  | evaluate e => [e]
  | print e => [e]
  | declare _ e => e.ifPresent
  | branch condition _ _ => [condition]
  | loop condition _ => [condition]
  | giveBack _ e => e.ifPresent
  | _ => []

/-- The parts that are executed in the course of a node.  The body of a function is executed
when it is called, and not where it is declared. -/
def branches : Node → List Node
  | block statements => statements
  | branch _ thenBranch elseBranch => thenBranch :: elseBranch.ifPresent
  | loop _ body => [body]
  | _ => []

theorem mem_ifPresent {e : Node} (h : e.isMissing = false) : e ∈ e.ifPresent := by
  simp [ifPresent, h]

/-- Whether the node is one that can be evaluated. -/
def isExpression : Node → Bool
  | literal _ | grouping _ | unary .. | binary .. | logical .. | reference _ | assign ..
  | call .. => true
  | _ => false

/-- Whether the node is one that can be executed. -/
def isStatement : Node → Bool
  | evaluate _ | print _ | declare .. | block _ | branch .. | loop .. | function ..
  | giveBack .. => true
  | _ => false

/-- The kinds of the operators between two operands that are both evaluated. -/
def binaryOperators : List Kind :=
  [.equalEqual, .bangEqual, .plus, .minus, .star, .slash, .greater, .greaterEqual, .less,
   .lessEqual]

/-- The stops that evaluating a node can come to by itself, without those of its parts and
those that have to do with scopes. -/
inductive Raises : Node → Stop → Prop where
  | operand {op : Mark} {e : Node} : Raises (.unary op e) (.failed ⟨op, .operand⟩)
  | operands {op : Mark} {l r : Node} : Raises (.binary l op r) (.failed ⟨op, .operands⟩)
  | operandsOfPlus {op : Mark} {l r : Node} :
    Raises (.binary l op r) (.failed ⟨op, .operandsOfPlus⟩)
  | unknownOperator {op : Mark} {l r : Node} (h : op.kind ∉ binaryOperators) :
    Raises (.binary l op r) (.failed ⟨op, .unknownOperator op.lexeme⟩)
  | notCallable {p : Mark} {f : Node} {es : List Node} :
    Raises (.call f p es) (.failed ⟨p, .notCallable⟩)
  | argumentCount {p : Mark} {f : Node} {es : List Node} {n k : Nat} (h : n ≠ k) :
    Raises (.call f p es) (.failed ⟨p, .argumentCount n k⟩)
  | stackOverflow {p : Mark} {f : Node} {es : List Node} :
    Raises (.call f p es) (.failed ⟨p, .stackOverflow⟩)
  | notExpression {node : Node} (h : node.isExpression = false) :
    Raises node (.broken (.expression node))

theorem Raises.ne_returned {node : Node} {why : Stop} (h : node.Raises why) (v : Value) :
    why ≠ .returned v := by
  cases h <;> simp

end Node

/-! ### Values up to the scopes of functions -/

namespace Value

/-- The value, where a function is taken without the scope it was declared in. -/
def unscoped : Value → Value
  | function f => function { f with closure := 0 }
  | v => v

/-- Whether the value is nil, a boolean, a number or a text. -/
def isScalar : Value → Bool
  | nil | bool _ | number _ | text _ => true
  | _ => false

@[simp] theorem isTruthy_unscoped (v : Value) : v.unscoped.isTruthy = v.isTruthy := by
  cases v <;> rfl

@[simp] theorem display_unscoped (v : Value) : v.unscoped.display = v.display := by
  cases v <;> rfl

@[simp] theorem typeName_unscoped (v : Value) : v.unscoped.typeName = v.typeName := by
  cases v <;> rfl

@[simp] theorem equal_unscoped (v w : Value) : v.unscoped.equal w.unscoped = v.equal w := by
  cases v <;> cases w <;> rfl

theorem unscoped_eq_function {v : Value} {f : Function}
    (h : v.unscoped = (function f).unscoped) :
    ∃ g, v = function g ∧ g.id = f.id ∧ g.name = f.name ∧ g.params = f.params ∧
      g.body = f.body := by
  cases v with
  | function g => exact ⟨g, rfl, by simpa [unscoped] using h⟩
  | _ => simp [unscoped] at h

end Value

theorem unaryValue_unscoped (op : Mark) (v : Value) :
    unaryValue op v.unscoped = unaryValue op v := by
  cases v <;> rfl

theorem binaryValue_unscoped (op : Mark) (v w : Value) :
    binaryValue op v.unscoped w.unscoped = binaryValue op v w := by
  unfold binaryValue
  rw [Value.equal_unscoped]
  cases v <;> cases w <;> rfl

/-- An operator before its operand gives a scalar or fails. -/
theorem unaryValue_cases (op : Mark) (e : Node) (v : Value) :
    (∃ u : Value, u.isScalar ∧ unaryValue op v = pure u) ∨
      ∃ why, (Node.unary op e).Raises why ∧ unaryValue op v = Effect.stop why := by
  unfold unaryValue
  split
  · exact .inl ⟨_, rfl, rfl⟩
  · split
    · exact .inl ⟨_, rfl, rfl⟩
    · exact .inr ⟨_, .operand, rfl⟩

theorem arithmetic_cases (op : Mark) (l r : Node) (x y : Float) (heq : op.kind ≠ .equalEqual)
    (hne : op.kind ≠ .bangEqual) (hplus : op.kind ≠ .plus) :
    (∃ u : Value, u.isScalar ∧ arithmetic op x y = pure u) ∨
      ∃ why, (Node.binary l op r).Raises why ∧ arithmetic op x y = Effect.stop why := by
  unfold arithmetic
  split
  all_goals first
    | exact .inl ⟨_, rfl, rfl⟩
    | refine .inr ⟨_, .unknownOperator ?_, rfl⟩
  simp only [Node.binaryOperators, List.mem_cons, List.not_mem_nil, or_false, not_or]
  exact ⟨heq, hne, hplus, ‹_›, ‹_›, ‹_›, ‹_›, ‹_›, ‹_›, ‹_›⟩

/-- An operator between two operands gives a scalar or fails. -/
theorem binaryValue_cases (op : Mark) (l r : Node) (v w : Value) :
    (∃ u : Value, u.isScalar ∧ binaryValue op v w = pure u) ∨
      ∃ why, (Node.binary l op r).Raises why ∧ binaryValue op v w = Effect.stop why := by
  unfold binaryValue
  split
  · exact .inl ⟨_, rfl, rfl⟩
  · exact .inl ⟨_, rfl, rfl⟩
  · split
    · exact .inl ⟨_, rfl, rfl⟩
    · exact .inl ⟨_, rfl, rfl⟩
    · exact .inr ⟨_, .operandsOfPlus, rfl⟩
  · split
    · exact arithmetic_cases op l r _ _ ‹_› ‹_› ‹_›
    · exact .inr ⟨_, .operands, rfl⟩

/-! ### Effects on scopes -/

namespace Effect

variable {α β : Type}

theorem bind_of_done {x : Effect α} {f : α → Effect β} {m n : Machine} {a : α}
    (h : x m = .done a n) : (x >>= f) m = f a n := by
  simp only [bind, h]

theorem bind_of_stopped {x : Effect α} {f : α → Effect β} {m n : Machine} {why : Stop}
    (h : x m = .stopped why n) : (x >>= f) m = .stopped why n := by
  simp only [bind, h]

theorem onArena_of_ok {f : Arena Key Value → Arena Key Value × Except Refusal α} {m : Machine}
    {arena : Arena Key Value} {a : α} (h : f m.arena = (arena, .ok a)) :
    onArena f m = .done a { m with arena := arena } := by
  cases m
  rw [onArena, h]

theorem onArena_of_error {f : Arena Key Value → Arena Key Value × Except Refusal α}
    {m : Machine} {arena : Arena Key Value} {r : Refusal} (h : f m.arena = (arena, .error r)) :
    onArena f m = .stopped (.broken (.scopes r)) { m with arena := arena } := by
  cases m
  rw [onArena, h]

theorem pushScope_apply (parent : Handle) (m : Machine) :
    pushScope parent m = .done (m.arena.push (some parent)).2
      { m with arena := (m.arena.push (some parent)).1 } :=
  onArena_of_ok rfl

end Effect

/-- The effect changes at most the arena of a machine, and gives no value back to a call. -/
def Effect.OnArena {α : Type} (x : Effect α) : Prop :=
  ∀ m, ∃ arena, (∃ a, x m = .done a { m with arena := arena }) ∨
    ∃ why, x m = .stopped why { m with arena := arena } ∧ ∀ v, why ≠ .returned v

namespace Effect.OnArena

variable {α β : Type}

theorem pure (a : α) : OnArena (Pure.pure a : Effect α) :=
  fun m => ⟨m.arena, .inl ⟨a, rfl⟩⟩

theorem gets (f : Machine → α) : OnArena (Effect.gets f) :=
  fun m => ⟨m.arena, .inl ⟨f m, rfl⟩⟩

theorem bind {x : Effect α} {f : α → Effect β} (hx : OnArena x) (hf : ∀ a, OnArena (f a)) :
    OnArena (x >>= f) := by
  intro m
  obtain ⟨arena, ⟨a, h⟩ | ⟨why, h, hwhy⟩⟩ := hx m
  · rw [bind_of_done h]
    exact hf a { m with arena := arena }
  · rw [bind_of_stopped h]
    exact ⟨arena, .inr ⟨why, rfl, hwhy⟩⟩

theorem key (name : Mark) : OnArena (Effect.key name) := by
  unfold Effect.key
  split
  · exact .pure _
  · exact fun m => ⟨m.arena, .inr ⟨_, rfl, by simp⟩⟩

theorem onArena (f : Arena Key Value → Arena Key Value × Except Refusal α) :
    OnArena (Effect.onArena f) := by
  intro m
  rcases hf : f m.arena with ⟨arena, r | a⟩
  · exact ⟨arena, .inr ⟨_, onArena_of_error hf, by simp⟩⟩
  · exact ⟨arena, .inl ⟨a, onArena_of_ok hf⟩⟩

theorem blaming (name : Mark) {x : Effect α} (hx : OnArena x) :
    OnArena (Effect.blaming name x) := by
  intro m
  obtain ⟨arena, ⟨a, h⟩ | ⟨why, h, hwhy⟩⟩ := hx m
  · exact ⟨arena, .inl ⟨a, by rw [Effect.blaming, h]⟩⟩
  · refine ⟨arena, .inr ?_⟩
    unfold Effect.blaming
    rw [h]
    split
    · rename_i heq
      obtain ⟨-, rfl⟩ := by simpa using heq
      exact ⟨_, rfl, by simp⟩
    · exact ⟨why, rfl, hwhy⟩

end Effect.OnArena

theorem leaveScope_apply (settings : Settings) (previous left : Handle) (m : Machine) :
    leaveScope settings previous left m =
      (if settings.reclaim then Effect.releaseScope left else pure ())
        { m with current := previous } := by
  rw [leaveScope]
  split
  · rfl
  · rfl

theorem leave_onArena (settings : Settings) (left : Handle) :
    (if settings.reclaim then Effect.releaseScope left else pure () : Effect Unit).OnArena := by
  split
  · exact .onArena _
  · exact .pure ()

theorem lookUp_onArena (name : Mark) : (Effect.lookUp name).OnArena :=
  .bind (.key name) fun _ => .bind (.gets _) fun _ => .blaming name (.onArena _)

theorem assign_onArena (name : Mark) (v : Value) : (Effect.assign name v).OnArena :=
  .bind (.key name) fun _ => .bind (.gets _) fun _ => .blaming name (.onArena _)

theorem define_onArena (scope : Handle) (name : Mark) (v : Value) :
    (Effect.define scope name v).OnArena :=
  .bind (.key name) fun _ => .onArena _

theorem defineHere_onArena (name : Mark) (v : Value) : (Effect.defineHere name v).OnArena :=
  .bind (.gets _) fun _ => define_onArena _ name v

theorem bindParameters_onArena (scope : Handle) (names : List Mark) (values : List Value) :
    (bindParameters scope names values).OnArena := by
  induction names generalizing values with
  | nil => exact .pure ()
  | cons name names ih =>
    cases values with
    | nil => exact .pure ()
    | cons v values => exact .bind (define_onArena scope name v) fun _ => ih values

/-! ### Calls -/

/-- The beginning of a call: a scope with the arguments, and one more call under way. -/
def openCall (f : Function) (arguments : List Value) : Effect Handle := do
  let scope ← Effect.pushScope f.closure
  bindParameters scope f.params arguments
  Effect.modify fun m => { m with calls := f :: m.calls }
  return scope

/-- The rest of a call: its body, and one call less under way however the body ends. -/
def closeCall (settings : Settings) (execute : Node → Effect Value) (f : Function)
    (scope : Handle) : Effect Value :=
  Effect.ensuring (catchReturned (executeIn settings execute f.body scope))
    (Effect.modify fun m => { m with calls := m.calls.tail })

theorem runBody_eq (settings : Settings) (execute : Node → Effect Value) (f : Function)
    (arguments : List Value) :
    runBody settings execute f arguments
      = openCall f arguments >>= closeCall settings execute f := by
  funext m
  simp only [runBody, openCall, bind, Pure.pure]
  rcases Effect.pushScope f.closure m with ⟨scope, m₁⟩ | ⟨why, m₁⟩
  · dsimp only
    rcases bindParameters scope f.params arguments m₁ with ⟨_, m₂⟩ | ⟨why, m₂⟩
    · rfl
    · rfl
  · rfl

theorem openCall_cases (f : Function) (arguments : List Value) (m : Machine) :
    ∃ arena, (∃ scope, openCall f arguments m
        = .done scope { m with arena := arena, calls := f :: m.calls }) ∨
      ∃ why, openCall f arguments m = .stopped why { m with arena := arena } ∧
        ∀ v, why ≠ .returned v := by
  have hpush := Effect.pushScope_apply f.closure m
  rw [openCall, Effect.bind_of_done hpush]
  obtain ⟨arena, ⟨_, h⟩ | ⟨why, h, hwhy⟩⟩ := bindParameters_onArena
    (m.arena.push (some f.closure)).2 f.params arguments
    { m with arena := (m.arena.push (some f.closure)).1 }
  · rw [Effect.bind_of_done h]
    exact ⟨arena, .inl ⟨_, rfl⟩⟩
  · rw [Effect.bind_of_stopped h]
    exact ⟨arena, .inr ⟨why, rfl, hwhy⟩⟩

/-- Beginning a call puts its function on top of the calls. -/
theorem openCall_calls {f : Function} {arguments : List Value} {scope : Handle} {m n : Machine}
    (h : openCall f arguments m = .done scope n) : n.calls = f :: m.calls := by
  obtain ⟨arena, ⟨scope', h'⟩ | ⟨why, h', -⟩⟩ := openCall_cases f arguments m
  · rw [h'] at h
    cases h
    rfl
  · rw [h'] at h
    cases h

/-- What the body of a call gives back is the value of that call. -/
theorem runBody_of_returned {settings : Settings} {execute : Node → Effect Value} {f : Function}
    {arguments : List Value} {scope : Handle} {v : Value} {m m₁ m₂ : Machine}
    (hopen : openCall f arguments m = .done scope m₁)
    (hbody : executeIn settings execute f.body scope m₁ = .stopped (.returned v) m₂) :
    runBody settings execute f arguments m = .done v { m₂ with calls := m₂.calls.tail } := by
  rw [runBody_eq, Effect.bind_of_done hopen]
  simp only [closeCall, Effect.ensuring, catchReturned, hbody, Effect.modify]

end LoxLang
