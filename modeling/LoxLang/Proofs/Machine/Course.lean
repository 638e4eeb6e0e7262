/-
The course of a machine.

A machine gets from one state to another by small changes: of its arena, of the current scope, of
the calls under way, and by lines that it writes to the output and to the trace.  What holds
between the machines before and after each of these (`Machine.Course`) holds between those before
and after any node:

* `Effect.Along.bind`, `Effect.Along.ensuring`, ... — one rule for each way to put effects together;
* `upTo_along`, `executeAll_along` — nodes, by induction on the bound.

None of the changes reports an error or closes the trace: that is left to whole runs
(`Machine.Quiet`).
-/
import LoxLang.Proofs.Machine.Simulation

namespace LoxLang

/-- What the small changes of a machine keep between the machine before and the one after. -/
class Machine.Course (R : Machine → Machine → Prop) : Prop where
  refl : ∀ m, R m m
  trans : ∀ {l m n}, R l m → R m n → R l n
  arena : ∀ m a, R m { m with arena := a }
  current : ∀ m h, R m { m with current := h }
  calls : ∀ m fs, R m { m with calls := fs }
  nextId : ∀ m i, R m { m with nextId := i }
  print : ∀ m line, R m { m with printed := m.printed.push line }
  trace : ∀ m line, R m { m with traced := m.traced.push line }

/-- Whatever the effect does, this holds between the machines before and after it. -/
def Effect.Along (R : Machine → Machine → Prop) {α : Type} (x : Effect α) : Prop :=
  ∀ m, R m (x m).machine

variable {R : Machine → Machine → Prop} [Machine.Course R] {α β : Type}

/-! ### Effects made of others -/

namespace Effect.Along

open Machine

theorem pure (a : α) : Along R (Pure.pure a : Effect α) := fun m => Course.refl m

theorem stop (why : Stop) : Along R (Effect.stop why : Effect α) := fun m => Course.refl m

theorem gets (f : Machine → α) : Along R (Effect.gets f) := fun m => Course.refl m

omit [Machine.Course R] in
theorem modify {f : Machine → Machine} (hf : ∀ m, R m (f m)) : Along R (Effect.modify f) := hf

section

omit [Machine.Course R]

variable {x : Effect α} {m n : Machine}

theorem of_done (hx : Along R x) {a : α} (h : x m = .done a n) : R m n := by
  have hm := hx m
  rwa [h] at hm

theorem of_stopped (hx : Along R x) {why : Stop} (h : x m = .stopped why n) : R m n := by
  have hm := hx m
  rwa [h] at hm

end

theorem bind {x : Effect α} {f : α → Effect β} (hx : Along R x) (hf : ∀ a, Along R (f a)) :
    Along R (x >>= f) := by
  intro m
  cases h : x m with
  | done a n =>
    rw [bind_of_done h]
    exact Course.trans (hx.of_done h) (hf a n)
  | stopped why n =>
    rw [bind_of_stopped h]
    exact hx.of_stopped h

theorem map {x : Effect α} (f : α → β) (hx : Along R x) : Along R (f <$> x) :=
  bind hx fun a => .pure (f a)

omit [Machine.Course R] in
theorem ite {x y : Effect α} {c : Prop} [Decidable c] (hx : Along R x) (hy : Along R y) :
    Along R (if c then x else y) := by
  split
  · exact hx
  · exact hy

theorem of_onArena {x : Effect α} (h : x.OnArena) : Along R x := by
  intro m
  obtain ⟨arena, ⟨a, ha⟩ | ⟨why, ha, -⟩⟩ := h m
  · rw [ha]
    exact Course.arena m arena
  · rw [ha]
    exact Course.arena m arena

theorem ensuring {x : Effect α} {last : Effect Unit} (hx : Along R x) (hlast : Along R last) :
    Along R (Effect.ensuring x last) := by
  intro m
  rw [Effect.ensuring]
  cases h : x m with
  | done a n =>
    have hm := hx.of_done h
    dsimp only
    cases h' : last n with
    | done _ k => exact Course.trans hm (hlast.of_done h')
    | stopped why k => exact Course.trans hm (hlast.of_stopped h')
  | stopped why n =>
    have hm := hx.of_stopped h
    dsimp only
    cases h' : last n with
    | done _ k => exact Course.trans hm (hlast.of_done h')
    | stopped why' k => exact Course.trans hm (hlast.of_stopped h')

theorem whileTrue {condition : Effect Bool} {body : Effect Unit} (hcondition : Along R condition)
    (hbody : Along R body) (n : Nat) : Along R (Effect.whileTrue condition body n) := by
  induction n with
  | zero => exact fun m => Course.refl m
  | succ n ih =>
    intro m
    rw [Effect.whileTrue]
    cases h : condition m with
    | stopped why n => exact hcondition.of_stopped h
    | done b n =>
      have hm := hcondition.of_done h
      cases b with
      | false => exact hm
      | true =>
        dsimp only
        cases h' : body n with
        | stopped why k => exact Course.trans hm (hbody.of_stopped h')
        | done _ k => exact Course.trans (Course.trans hm (hbody.of_done h')) (ih k)

omit [Machine.Course R] in
theorem catchReturned {x : Effect Unit} (hx : Along R x) : Along R (LoxLang.catchReturned x) := by
  intro m
  rw [LoxLang.catchReturned]
  cases h : x m with
  | done _ n => exact hx.of_done h
  | stopped why n =>
    have hm := hx.of_stopped h
    cases why with
    | returned v => exact hm
    | failed e => exact hm
    | broken b => exact hm
    | exhausted => exact hm

theorem print (line : String) : Along R (Effect.print line) := fun m => Course.print m line

/-- A line for the trace goes to the output once the trace has been closed. -/
theorem trace (level : Nat) (line : String) : Along R (Effect.trace level line) := by
  refine .modify fun m => ?_
  split
  · exact Course.refl m
  · split
    · exact Course.trace m line
    · exact Course.print m line

theorem traceFrom (least : Nat) (settings : Settings) (line : String) :
    Along R (LoxLang.traceFrom least settings line) :=
  .ite (.trace _ line) (.pure ())

theorem setCurrent (h : Handle) : Along R (Effect.modify fun m => { m with current := h }) :=
  .modify fun m => Course.current m h

end Effect.Along

/-! ### Nodes -/

section

variable {settings : Settings} {evaluate execute : Node → Effect Value}

theorem executeAll_along (hexecute : ∀ e, (execute e).Along R) (es : List Node) :
    (executeAll execute es).Along R := by
  induction es with
  | nil => exact .pure ()
  | cons e es ih => exact .bind (hexecute e) fun _ => ih

theorem evaluateAll_along (hevaluate : ∀ e, (evaluate e).Along R) (es : List Node) :
    (evaluateAll evaluate es).Along R := by
  induction es with
  | nil => exact .pure []
  | cons e es ih => exact .bind (hevaluate e) fun _ => .bind ih fun _ => .pure _

theorem executeIn_along (hexecute : ∀ e, (execute e).Along R) (es : List Node) (scope : Handle) :
    (executeIn settings execute es scope).Along R := by
  refine .bind (.gets _) fun previous => .ensuring ?_ ?_
  · exact .bind (.setCurrent scope) fun _ => executeAll_along hexecute es
  · exact .bind (.setCurrent previous) fun _ => .of_onArena (leave_onArena settings scope)

theorem executeBlock_along (hexecute : ∀ e, (execute e).Along R) (es : List Node) :
    (executeBlock settings execute es).Along R :=
  .bind (.gets _) fun _ => .bind (.of_onArena (.onArena _)) fun _ => executeIn_along hexecute es _

theorem runBody_along (hexecute : ∀ e, (execute e).Along R) (f : Function)
    (arguments : List Value) : (runBody settings execute f arguments).Along R := by
  refine .bind (.of_onArena (.onArena _)) fun scope => ?_
  refine .bind (.of_onArena (bindParameters_onArena _ _ _)) fun _ => ?_
  refine .bind (.modify fun m => Machine.Course.calls m _) fun _ => .ensuring ?_ ?_
  · exact .catchReturned (executeIn_along hexecute f.body scope)
  · exact .modify fun m => Machine.Course.calls m _

theorem call_along (hexecute : ∀ e, (execute e).Along R) (callee : Value)
    (arguments : List Value) (paren : Mark) :
    (call settings execute callee arguments paren).Along R := by
  cases callee with
  | function f =>
    by_cases h : arguments.length = f.arity
    · rw [Simulation.call_function settings execute f arguments paren h]
      exact .bind (.traceFrom _ _ _) fun _ => .bind (.gets _) fun _ =>
        .ite (.stop _) (runBody_along hexecute f arguments)
    · rw [call, if_pos h]
      exact .stop _
  | _ => exact .stop _

theorem declareFunction_along (name : Mark) (params : List Mark) (body : List Node) :
    (declareFunction settings name params body).Along R := by
  rw [declareFunction_eq]
  refine .bind (.gets _) fun closure => .bind (.of_onArena (.onArena _)) fun _ => ?_
  refine .bind (.gets _) fun id => .bind (.modify fun m => Machine.Course.nextId m _) fun _ => ?_
  refine .bind (.of_onArena (defineHere_onArena _ _)) fun _ => ?_
  exact .bind (.traceFrom _ _ _) fun _ => .pure _

/-- An operator changes nothing. -/
theorem unaryValue_along (op : Mark) (v : Value) : (unaryValue op v).Along R := by
  rcases unaryValue_cases op .missing v with ⟨u, -, h⟩ | ⟨why, -, h⟩
  · rw [h]
    exact .pure u
  · rw [h]
    exact .stop why

theorem binaryValue_along (op : Mark) (v w : Value) : (binaryValue op v w).Along R := by
  rcases binaryValue_cases op .missing .missing v w with ⟨u, -, h⟩ | ⟨why, -, h⟩
  · rw [h]
    exact .pure u
  · rw [h]
    exact .stop why

theorem evaluateStep_along (hevaluate : ∀ e, (evaluate e).Along R)
    (hexecute : ∀ e, (execute e).Along R) (node : Node) :
    (evaluateStep settings evaluate execute node).Along R := by
  cases node with
  | literal j => exact .pure _
  | grouping e => exact hevaluate e
  | reference name => exact .of_onArena (lookUp_onArena name)
  | assign name e =>
    exact .bind (hevaluate e) fun v => .bind (.of_onArena (assign_onArena name v)) fun _ => .pure v
  | unary op e => exact .bind (hevaluate e) fun v => unaryValue_along op v
  | logical left op right =>
    exact .bind (hevaluate left) fun v => .ite (.pure v) (hevaluate right)
  | binary left op right =>
    exact .bind (hevaluate left) fun v => .bind (hevaluate right) fun w => binaryValue_along op v w
  | call callee paren arguments =>
    exact .bind (hevaluate callee) fun f => .bind (evaluateAll_along hevaluate arguments) fun vs =>
      call_along hexecute f vs paren
  | _ => exact .stop _

theorem executeStep_along (hevaluate : ∀ e, (evaluate e).Along R)
    (hexecute : ∀ e, (execute e).Along R) (rounds : Nat) (node : Node) :
    (executeStep settings evaluate execute rounds node).Along R := by
  cases node with
  | evaluate e => exact hevaluate e
  | print e => exact .bind (hevaluate e) fun v => .bind (.print _) fun _ => .pure _
  | declare name e =>
    rw [Simulation.executeStep_declare]
    refine .bind (.ite (.pure _) (hevaluate e)) fun v => ?_
    exact .bind (.of_onArena (defineHere_onArena name v)) fun _ => .bind (.traceFrom _ _ _) fun _ =>
      .pure _
  | block statements =>
    rw [Simulation.executeStep_block]
    exact .bind (executeBlock_along hexecute statements) fun _ => .pure _
  | branch condition thenBranch elseBranch =>
    rw [Simulation.executeStep_branch]
    refine .bind (hevaluate condition) fun v => .bind (.traceFrom _ _ _) fun _ => ?_
    exact .bind (.ite (hexecute thenBranch) (.ite (.pure _) (hexecute elseBranch))) fun _ => .pure _
  | loop condition body =>
    rw [Simulation.executeStep_loop]
    refine .bind (.whileTrue (.map _ (hevaluate condition)) ?_ rounds) fun _ => ?_
    · exact .bind (hexecute body) fun _ => .pure ()
    · exact .bind (.traceFrom _ _ _) fun _ => .pure _
  | function name params body => exact declareFunction_along name params body
  | giveBack keyword e =>
    intro m
    rw [Simulation.executeStep_giveBack]
    split
    · exact Machine.Course.refl m
    · exact Effect.Along.bind (.ite (.pure _) (hevaluate e)) (fun _ => .stop _) m
  | _ => exact .stop _

end

/-- Expressions and statements, whatever the bound. -/
theorem upTo_along (settings : Settings) (n : Nat) :
    (∀ e, Effect.Along R (evaluateUpTo settings n e)) ∧
      ∀ e, Effect.Along R (executeUpTo settings n e) := by
  induction n with
  | zero => exact ⟨fun _ m => Machine.Course.refl m, fun _ m => Machine.Course.refl m⟩
  | succ n ih =>
    exact ⟨evaluateStep_along ih.1 ih.2, executeStep_along ih.1 ih.2 n⟩

/-! ### Reports and the trace -/

/-- No error has been reported since, and the trace is as open as it was. -/
def Machine.Quiet (m n : Machine) : Prop :=
  n.reported = m.reported ∧ n.traceOpen = m.traceOpen

instance : Machine.Course Machine.Quiet where
  refl _ := ⟨rfl, rfl⟩
  trans h h' := ⟨h'.1.trans h.1, h'.2.trans h.2⟩
  arena _ _ := ⟨rfl, rfl⟩
  current _ _ := ⟨rfl, rfl⟩
  calls _ _ := ⟨rfl, rfl⟩
  nextId _ _ := ⟨rfl, rfl⟩
  print _ _ := ⟨rfl, rfl⟩
  trace _ _ := ⟨rfl, rfl⟩

/-- Statements report no errors: that is left to the run around them. -/
theorem executeAll_quiet (settings : Settings) (n : Nat) (es : List Node) (m : Machine) :
    m.Quiet (executeAll (executeUpTo settings n) es m).machine :=
  executeAll_along (upTo_along settings n).2 es m

end LoxLang
