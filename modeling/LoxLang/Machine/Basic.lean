/-
The machine that runs programs: its state and the ways in which a step ends.

A `Machine` holds the scopes, the handle of the current scope, the calls that are under
way and what has been written so far.  An `Effect` takes a machine and ends in an
`Outcome`: it is `done` with a result, or it `stopped` for a reason, and in both cases
there is a machine to go on with.
-/
import LoxLang.Diagnostic
import LoxLang.Scope.Arena
import LoxLang.Scope.Key

namespace LoxLang

/-- How a machine runs.  `level` says how much it traces, from 0 (nothing) to 4.  A machine
that does not `reclaim` keeps every scope; `maxCalls` is the number of calls that may be
under way at once; `patience` bounds nested steps and the rounds of each loop. -/
structure Settings where
  level : Nat
  reclaim : Bool
  maxCalls : Nat
  patience : Nat

/-- The usual settings for a trace level, with more patience than any run can use up. -/
def Settings.tracing (level : Nat) : Settings := ⟨level, true, 1000, 0x4000000000000000⟩

/-- The state of a run.  `calls` are the functions whose bodies are being executed,
innermost first; `printed`, `traced` and `reported` are the lines written to the output, to
the trace and for errors; `nextId` tells the next function apart from all earlier ones. -/
structure Machine where
  arena : Arena Key Value
  current : Handle
  calls : List Function
  nextId : Nat
  printed : Array String
  traced : Array String
  reported : Array String
  traceOpen : Bool

/-- The state before the first run. -/
def Machine.initial : Machine where
  arena := .initial
  current := Arena.globals
  calls := []
  nextId := 0
  printed := #[]
  traced := #[]
  reported := #[]
  traceOpen := true

/-- A tree that makes no sense to the machine. -/
inductive Breakage where
  /-- This is no statement. -/
  | statement (node : Node)
  /-- This is no expression. -/
  | expression (node : Node)
  /-- A list or an object stands where a name belongs. -/
  | name
  /-- A whole program is no list of statements. -/
  | program
  /-- An operation on scopes was refused. -/
  | scopes (refusal : Refusal)

/-- Why an effect stops early. -/
inductive Stop where
  /-- A value is given back to the innermost call. -/
  | returned (v : Value)
  | failed (e : RuntimeError)
  | broken (b : Breakage)
  /-- The bound on nested evaluations and on rounds of a loop is reached. -/
  | exhausted

/-- How an effect ends. -/
inductive Outcome (α : Type) where
  | done (result : α) (m : Machine)
  | stopped (why : Stop) (m : Machine)

/-- Something that a machine does. -/
def Effect (α : Type) : Type := Machine → Outcome α

namespace Effect

variable {α β : Type}

instance : Monad Effect where
  pure a := fun m => .done a m
  bind x f := fun m => match x m with
    | .done a m => f a m
    | .stopped why m => .stopped why m

/-- Stops for a reason. -/
def stop (why : Stop) : Effect α := fun m => .stopped why m

/-- Stops because of a fault of the program. -/
def fail (mark : Mark) (fault : RuntimeFault) : Effect α :=
  stop (.failed ⟨mark, fault⟩)

/-- Gives a part of the machine's state. -/
def gets (f : Machine → α) : Effect α := fun m => .done (f m) m

/-- Changes the machine's state. -/
def modify (f : Machine → Machine) : Effect Unit := fun m => .done () (f m)

/-- Writes a line to the output. -/
def print (line : String) : Effect Unit :=
  modify fun m => { m with printed := m.printed.push line }

/-- Writes the line for an error. -/
def report (line : String) : Effect Unit :=
  modify fun m => { m with reported := m.reported.push line }

/-- Writes a line to the trace, if there is one at this level; after the trace has been
closed, to the output. -/
def trace (level : Nat) (line : String) : Effect Unit :=
  modify fun m =>
    if level = 0 then m
    else if m.traceOpen then { m with traced := m.traced.push line }
    else { m with printed := m.printed.push line }

/-- The key for a name. -/
def key (name : Mark) : Effect Key :=
  match Key.ofName? name.lexeme with
  | some k => pure k
  | none => stop (.broken .name)

/-- Changes the arena; a refusal breaks the run off. -/
def onArena (f : Arena Key Value → Arena Key Value × Except Refusal α) : Effect α
  | ⟨arena, current, calls, nextId, printed, traced, reported, traceOpen⟩ =>
    match f arena with
    | (arena, .ok a) =>
      .done a ⟨arena, current, calls, nextId, printed, traced, reported, traceOpen⟩
    | (arena, .error r) =>
      .stopped (.broken (.scopes r))
        ⟨arena, current, calls, nextId, printed, traced, reported, traceOpen⟩

/-- Makes a scope inside another one. -/
def pushScope (parent : Handle) : Effect Handle :=
  onArena fun a => (a.push (some parent)).map id .ok

/-- Gives up a scope. -/
def releaseScope (h : Handle) : Effect Unit :=
  onArena fun a => a.release h

/-- Pins a scope and the scopes around it. -/
def pinScope (h : Handle) : Effect Unit :=
  onArena fun a => a.pin h

/-- Binds a name in a scope. -/
def define (h : Handle) (name : Mark) (v : Value) : Effect Unit := do
  let k ← key name
  onArena fun a => a.define h k v

/-- Binds a name in the current scope. -/
def defineHere (name : Mark) (v : Value) : Effect Unit := do
  let h ← gets (·.current)
  define h name v

/-- The same effect, where a name without a definition is a fault of the program. -/
def blaming (name : Mark) (x : Effect α) : Effect α := fun m =>
  match x m with
  | .stopped (.broken (.scopes .unbound)) m =>
    fail name (.undefinedVariable name.lexeme) m
  | outcome => outcome

/-- The value of a name. -/
def lookUp (name : Mark) : Effect Value := do
  let k ← key name
  let h ← gets (·.current)
  blaming name (onArena fun a => (a, a.get h k))

/-- Binds a name anew in the nearest scope that binds it. -/
def assign (name : Mark) (v : Value) : Effect Unit := do
  let k ← key name
  let h ← gets (·.current)
  blaming name (onArena fun a => a.assign h k v)

/-- The first effect, and the second one after it however the first one ends.  It ends as
the first one does, unless the second one stops. -/
def ensuring (x : Effect α) (last : Effect Unit) : Effect α := fun m =>
  match x m with
  | .done a m => match last m with
    | .done _ m => .done a m
    | .stopped why m => .stopped why m
  | .stopped why m => match last m with
    | .done _ m => .stopped why m
    | .stopped why' m => .stopped why' m

/-- Repeats an effect as long as a condition holds, at most `n` times. -/
def whileTrue (condition : Effect Bool) (body : Effect Unit) : Nat → Machine → Outcome Unit
  | 0, m => .stopped .exhausted m
  | n + 1, m => match condition m with
    | .done true m => match body m with
      | .done _ m => whileTrue condition body n m
      | .stopped why m => .stopped why m
    | .done false m => .done () m
    | .stopped why m => .stopped why m

end Effect

end LoxLang
