/-
Control is restored.

Whatever a node does, and however it ends, the current scope and the calls under way are
afterwards what they were before.  No evaluation ends with a value that is given back, and an
execution does so only while a call is under way.  Hence every run of a session leaves the
machine in the global scope with no call under way.

These facts hold of every machine and every node, malformed ones included.  They are the
simulation of the evaluator by itself in which two machines correspond when they are the same
and have a given current scope and given calls.
-/
import LoxLang.Proofs.Machine.Session

namespace LoxLang

/-! ### Effects that keep control -/

/-- The effect leaves the current scope and the calls as they are, and gives no value back. -/
def Effect.Steady {α : Type} (x : Effect α) : Prop :=
  ∀ m, (x m).machine.current = m.current ∧ (x m).machine.calls = m.calls ∧
    ∀ v n, x m ≠ .stopped (.returned v) n

namespace Effect.Steady

variable {α β : Type}

theorem pure (a : α) : Steady (Pure.pure a : Effect α) := by
  intro m
  exact ⟨rfl, rfl, fun v n h => by cases h⟩

theorem gets (f : Machine → α) : Steady (Effect.gets f) := by
  intro m
  exact ⟨rfl, rfl, fun v n h => by cases h⟩

theorem modify {f : Machine → Machine} (hcurrent : ∀ m, (f m).current = m.current)
    (hcalls : ∀ m, (f m).calls = m.calls) : Steady (Effect.modify f) := by
  intro m
  exact ⟨hcurrent m, hcalls m, fun v n h => by cases h⟩

theorem of_onArena {x : Effect α} (h : x.OnArena) : Steady x := by
  intro m
  obtain ⟨arena, ⟨a, ha⟩ | ⟨why, hstop, hwhy⟩⟩ := h m
  · rw [ha]
    exact ⟨rfl, rfl, fun v n h => by cases h⟩
  · rw [hstop]
    refine ⟨rfl, rfl, fun v n h => ?_⟩
    cases h
    exact hwhy v rfl

theorem bind {x : Effect α} {f : α → Effect β} (hx : Steady x) (hf : ∀ a, Steady (f a)) :
    Steady (x >>= f) := by
  intro m
  obtain ⟨hcurrent, hcalls, hreturned⟩ := hx m
  cases hm : x m with
  | done a n =>
    rw [hm] at hcurrent hcalls
    rw [bind_of_done hm]
    obtain ⟨hcurrent', hcalls', hreturned'⟩ := hf a n
    exact ⟨hcurrent'.trans hcurrent, hcalls'.trans hcalls, hreturned'⟩
  | stopped why n =>
    rw [hm] at hcurrent hcalls hreturned
    rw [bind_of_stopped hm]
    exact ⟨hcurrent, hcalls, fun v k h => hreturned v k (by cases h; rfl)⟩

end Effect.Steady

theorem trace_steady (level : Nat) (line : String) : (Effect.trace level line).Steady := by
  refine .modify ?_ ?_
  · intro m
    split
    · rfl
    · split <;> rfl
  · intro m
    split
    · rfl
    · split <;> rfl

theorem traceFrom_steady (least : Nat) (settings : Settings) (line : String) :
    (traceFrom least settings line).Steady := by
  rw [traceFrom]
  split
  · exact trace_steady _ line
  · exact .pure ()

theorem declareFunction_steady (settings : Settings) (name : Mark) (params : List Mark)
    (body : List Node) : (declareFunction settings name params body).Steady := by
  rw [declareFunction_eq]
  refine .bind (.gets _) fun closure => ?_
  refine .bind (.of_onArena (.onArena _)) fun _ => ?_
  refine .bind (.gets _) fun id => ?_
  refine .bind (.modify (fun _ => rfl) fun _ => rfl) fun _ => ?_
  refine .bind (.of_onArena (defineHere_onArena _ _)) fun _ => ?_
  exact .bind (traceFrom_steady _ _ _) fun _ => .pure _

/-! ### Control as a simulation -/

/-- Machines correspond when they are the same; a world is a current scope with the calls under
way. -/
def control : Correspondence where
  World := Handle × List Function
  le v w := v = w
  machines w m m' := m = m' ∧ m.current = w.1 ∧ m.calls = w.2
  values _ a b := a = b
  halts _ := True
  active w := w.2 ≠ []
  le_refl _ := rfl
  le_trans := Eq.trans
  values_mono _ h := h
  active_mono {v w} h hv := by
    obtain rfl : v = w := h
    exact hv

/-- An effect that keeps control corresponds to itself. -/
theorem related_of_steady {α : Type} {results : control.World → α → α → Prop}
    {w : control.World} {x : Effect α} (hx : x.Steady) (hresults : ∀ u a, results u a a) :
    Effect.Related control control.Halting results w x x := by
  refine .diagonal (fun u m m' h => h.1) ?_
  rintro u - m ⟨-, hcurrent, hcalls⟩
  obtain ⟨hcurrent', hcalls', hreturned⟩ := hx m
  cases hm : x m with
  | done a n =>
    rw [hm] at hcurrent' hcalls'
    exact .done rfl ⟨rfl, hcurrent'.trans hcurrent, hcalls'.trans hcalls⟩ (hresults u a)
  | stopped why n =>
    rw [hm] at hcurrent' hcalls' hreturned
    refine .stopped rfl ⟨rfl, hcurrent'.trans hcurrent, hcalls'.trans hcalls⟩ ⟨rfl, trivial, ?_⟩
    intro v hv
    exact hreturned v n (by rw [hv])

/-- Statements in a scope of their own keep control, given that each statement does. -/
theorem executeIn_control {settings : Settings} {execute execute' : Node → Effect Value}
    {statements : List Node} {scope : Handle} {m : Machine}
    (hexecute : ∀ (u : control.World) (e : Node),
      Effect.Related control control.Leaving control.values u (execute e) (execute' e)) :
    Outcome.Related control control.Leaving control.Anything (m.current, m.calls)
      (executeIn settings execute statements scope m)
      (executeIn settings execute' statements scope m) := by
  have henter : control.machines (scope, m.calls) { m with current := scope }
      { m with current := scope } := ⟨rfl, rfl, rfl⟩
  refine executeIn_related henter (executeAll_related fun e _ u _ => hexecute u e) ?_
  rintro u rfl n n' ⟨rfl, -, hcalls⟩
  refine ⟨(m.current, m.calls), rfl, fun _ _ h => h, ?_⟩
  rw [leaveScope_apply]
  exact related_of_steady (.of_onArena (leave_onArena settings scope)) (fun _ _ => trivial) _ rfl
    _ _ ⟨rfl, rfl, hcalls⟩

/-- The evaluator keeps control. -/
def controlSimulation (settings : Settings) : Simulation settings settings where
  toCorrespondence := control
  expression _ _ := True
  statement _ _ := True
  expression_mono _ _ := trivial
  statement_mono _ _ := trivial
  expression_operand _ _ := trivial
  statement_operand _ _ := trivial
  statement_branch _ _ _ := trivial
  maxCalls_eq := settings.maxCalls_self
  calls_length h := by rw [h.1]
  unscoped_eq h := by rw [show _ = _ from h]
  scalar _ := rfl
  literal _ := rfl
  exhausted := trivial
  raises _ _ := trivial
  notStatement _ _ := trivial
  topLevelReturn _ _ _ := trivial
  active_of_calls {w m m'} h hcalls := by
    show w.2 ≠ []
    rw [← h.2.2]
    exact hcalls
  print line := related_of_steady (.modify (fun _ => rfl) fun _ => rfl) fun _ _ => trivial
  report line := related_of_steady (.modify (fun _ => rfl) fun _ => rfl) fun _ _ => trivial
  trace least line := related_of_steady (traceFrom_steady _ _ _) fun _ _ => trivial
  lookUp _ := related_of_steady (.of_onArena (lookUp_onArena _)) fun _ _ => rfl
  assign _ h := by
    rw [show _ = _ from h]
    exact related_of_steady (.of_onArena (assign_onArena _ _)) fun _ _ => trivial
  declare _ h := by
    rw [show _ = _ from h]
    exact related_of_steady (.of_onArena (defineHere_onArena _ _)) fun _ _ => trivial
  declareFunction _ := related_of_steady (declareFunction_steady _ _ _ _) fun _ _ => rfl
  block {w execute execute' statements} hexecute _ := by
    rintro u - m m' ⟨rfl, hcurrent, hcalls⟩
    -- The world is what the machine says, so the block is entered from its current scope.
    obtain rfl : u = (m.current, m.calls) := Prod.ext hcurrent.symm hcalls.symm
    rw [executeBlock_apply, executeBlock_apply]
    exact executeIn_control (m := { m with arena := (m.arena.push (some m.current)).1 })
      fun u e => hexecute u e trivial
  body {w execute execute' f f' arguments arguments'} hexecute hf hs _ := by
    obtain rfl : f = f' := by injection (show Value.function f = Value.function f' from hf)
    obtain rfl : arguments = arguments' := List.forall₂_eq_eq_eq ▸ hs
    rintro u - m m' ⟨rfl, hcurrent, hcalls⟩
    obtain rfl : u = (m.current, m.calls) := Prod.ext hcurrent.symm hcalls.symm
    rw [runBody_eq, runBody_eq]
    obtain ⟨arena, ⟨scope, h⟩ | ⟨why, h, hwhy⟩⟩ := openCall_cases f arguments m
    · rw [Effect.bind_of_done h, Effect.bind_of_done h]
      refine closeCall_related (fun _ => rfl)
        (executeIn_control (m := { m with arena := arena, calls := f :: m.calls })
          fun u e => hexecute u e trivial) ?_
      rintro u rfl n n' ⟨rfl, hcurrent', hcalls'⟩
      refine ⟨(m.current, m.calls), rfl, ⟨rfl, hcurrent', ?_⟩, fun _ _ h => h⟩
      -- The call that was pushed is on top again, whatever the body has done.
      show n.calls.tail = m.calls
      rw [hcalls']
      rfl
    · rw [Effect.bind_of_stopped h, Effect.bind_of_stopped h]
      exact .stopped rfl ⟨rfl, rfl, rfl⟩ ⟨rfl, trivial, hwhy⟩

/-! ### Control is restored -/

/-- The effect ends, however it ends, with the current scope and the calls it began with. -/
def Effect.KeepsControl {α : Type} (x : Effect α) : Prop :=
  ∀ m, (x m).machine.current = m.current ∧ (x m).machine.calls = m.calls

/-- The effect has ended because a value is given back to a call. -/
def Outcome.GivesBack {α : Type} : Outcome α → Prop
  | .stopped (.returned _) _ => True
  | _ => False

theorem Outcome.GivesBack.not_of_halting {α : Type} {x : Outcome α} {w : control.World}
    {results : control.World → α → α → Prop}
    (h : Outcome.Related control control.Halting results w x x) : ¬x.GivesBack := by
  cases h with
  | done _ _ _ => exact id
  | @stopped u why _ n _ _ _ ends =>
    cases why with
    | returned v => exact absurd rfl (ends.2.2 v)
    | failed _ | broken _ | exhausted => exact id

theorem Outcome.GivesBack.calls_ne_nil {α : Type} {x : Outcome α} {w : control.World}
    {results : control.World → α → α → Prop}
    (h : Outcome.Related control control.Leaving results w x x) (hx : x.GivesBack) :
    w.2 ≠ [] := by
  cases h with
  | done _ _ _ => exact hx.elim
  | @stopped u why _ n _ grown _ ends =>
    obtain rfl : w = u := grown
    rcases ends with ⟨-, -, hreturned⟩ | ⟨a, -, -, -, hactive, -⟩
    · cases why with
      | returned v => exact absurd rfl (hreturned v)
      | failed _ | broken _ | exhausted => exact hx.elim
    · exact hactive

/-- What corresponds to itself leaves the current scope and the calls of its world. -/
theorem control_of_related {α : Type} {x : Outcome α} {w : control.World}
    {stops : control.World → Stop → Stop → Prop} {results : control.World → α → α → Prop}
    (h : Outcome.Related control stops results w x x) :
    x.machine.current = w.1 ∧ x.machine.calls = w.2 := by
  cases h with
  | done grown machines _ =>
    obtain rfl : w = _ := grown
    exact machines.2
  | stopped grown machines _ =>
    obtain rfl : w = _ := grown
    exact machines.2

theorem evaluateUpTo_control (settings : Settings) (n : Nat) (node : Node) (m : Machine) :
    Outcome.Related control control.Halting control.values (m.current, m.calls)
      (evaluateUpTo settings n node m) (evaluateUpTo settings n node m) :=
  (controlSimulation settings).evaluateUpTo n _ node trivial _ rfl m m ⟨rfl, rfl, rfl⟩

theorem executeUpTo_control (settings : Settings) (n : Nat) (node : Node) (m : Machine) :
    Outcome.Related control control.Leaving control.values (m.current, m.calls)
      (executeUpTo settings n node m) (executeUpTo settings n node m) :=
  (controlSimulation settings).executeUpTo n _ node trivial _ rfl m m ⟨rfl, rfl, rfl⟩

/-- Every run of a session ends in the scope and with the calls with which the session began,
and gives nothing back unless a call was under way. -/
theorem session_control (settings : Settings) (requests : List Request) (m : Machine) :
    ∀ outcome ∈ session settings requests m,
      outcome.machine.current = m.current ∧ outcome.machine.calls = m.calls ∧
        (outcome.GivesBack → m.calls ≠ []) := by
  obtain ⟨w, hw, -, h⟩ := (controlSimulation settings).session rfl
    (w := (m.current, m.calls)) (m := m) ⟨rfl, rfl, rfl⟩ fun u _ r _ =>
      Simulation.admits_of_statement (fun _ _ => trivial) trivial u r
  obtain rfl : (m.current, m.calls) = w := hw
  rw [List.forall₂_same] at h
  intro outcome houtcome
  cases h outcome houtcome with
  | @done u r _ n _ grown machines ends =>
    obtain rfl : u = (m.current, m.calls) := grown
    exact ⟨machines.2.1, machines.2.2, False.elim⟩
  | @stopped u why _ n _ grown machines ends =>
    obtain rfl : u = (m.current, m.calls) := grown
    refine ⟨machines.2.1, machines.2.2, fun hback => ?_⟩
    exact hback.calls_ne_nil (.stopped rfl machines ends : Outcome.Related control
      control.Leaving (α := Completion) control.Anything (m.current, m.calls) _ _)

/-- Control is restored on every exit.  Whatever a node does and however that ends, the current
scope and the calls are as before.  An evaluation gives nothing back, an execution does so only
during a call, and what is given back becomes the value of the innermost call and takes that
call, and no other, off the calls.  After each run of a session the global scope is current, no
call is under way and nothing has been given back by the run. -/
theorem control_restored (settings : Settings) :
    (∀ n node, Effect.KeepsControl (evaluateUpTo settings n node) ∧
      Effect.KeepsControl (executeUpTo settings n node)) ∧
    (∀ n node m, ¬(evaluateUpTo settings n node m).GivesBack ∧
      ((executeUpTo settings n node m).GivesBack → m.calls ≠ [])) ∧
    (∀ n f arguments scope v m m₁ m₂, openCall f arguments m = .done scope m₁ →
      executeIn settings (executeUpTo settings n) f.body scope m₁ = .stopped (.returned v) m₂ →
      m₂.calls = f :: m.calls ∧
        runBody settings (executeUpTo settings n) f arguments m
          = .done v { m₂ with calls := m.calls }) ∧
    ∀ requests, ∀ outcome ∈ session settings requests .initial,
      outcome.machine.current = Arena.globals ∧ outcome.machine.calls = [] ∧
        ¬outcome.GivesBack := by
  refine ⟨?_, ?_, ?_, ?_⟩
  · intro n node
    constructor
    · intro m
      exact control_of_related (evaluateUpTo_control settings n node m)
    · intro m
      exact control_of_related (executeUpTo_control settings n node m)
  · intro n node m
    constructor
    · exact Outcome.GivesBack.not_of_halting (evaluateUpTo_control settings n node m)
    · exact Outcome.GivesBack.calls_ne_nil (executeUpTo_control settings n node m)
  · intro n f arguments scope v m m₁ m₂ hopen hbody
    -- The body keeps the calls with which it began, and the innermost of these is its own.
    have hrelated : Outcome.Related control control.Leaving control.Anything
        (m₁.current, m₁.calls) (executeIn settings (executeUpTo settings n) f.body scope m₁)
        (executeIn settings (executeUpTo settings n) f.body scope m₁) :=
      executeIn_control fun u e => (controlSimulation settings).executeUpTo n u e trivial
    have hcalls : m₂.calls = f :: m.calls := by
      rw [← openCall_calls hopen]
      have h := (control_of_related hrelated).2
      rw [hbody] at h
      exact h
    refine ⟨hcalls, ?_⟩
    rw [runBody_of_returned hopen hbody, hcalls]
    rfl
  · intro requests outcome houtcome
    obtain ⟨hcurrent, hcalls, hback⟩ := session_control settings requests _ outcome houtcome
    exact ⟨hcurrent, hcalls, fun h => hback h rfl⟩

/-- The call of a function that gives back `true` from inside a block. -/
theorem control_restored_of_call :
    let settings : Settings := ⟨0, true, 8, 4⟩
    let f : Function := ⟨0, default, [], [.block [.giveBack default (.literal (.bool true))]], 0⟩
    ∃ scope v m₁ m₂, openCall f [] .initial = .done scope m₁ ∧
      executeIn settings (executeUpTo settings 4) f.body scope m₁ = .stopped (.returned v) m₂ ∧
      runBody settings (executeUpTo settings 4) f [] .initial = .done v { m₂ with calls := [] } := by
  intro settings f
  exact ⟨_, _, _, _, rfl, rfl, ((control_restored settings).2.2.1 4 f [] _ _ _ _ _ rfl rfl).2⟩

end LoxLang
