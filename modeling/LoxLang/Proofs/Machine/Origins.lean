/-
Where names and values come from.

A name gets into a scope by a declaration that is executed there (`Moment.Introduces`), and a value
gets to a name by a declaration or by an assignment, in the nearest scope that binds the name
(`Moment.Assigns`).  There is no other way, whatever is evaluated or executed and however that ends
(`writes_of_outcome`).

A declaration in a block, or in the body of a function that is called, is executed in a scope that
was not there before.  So a block or a call leaves the names alone that are bound in the scopes
around it, and everywhere else (`outer_names_kept`).
-/
import LoxLang.Proofs.Machine.Confinement
import LoxLang.Proofs.Machine.Control
import LoxLang.Proofs.Scope.Written

namespace LoxLang

/-! ### Declarations and assignments -/

/-- A declaration is about to bind a name in the current scope. -/
inductive Moment.Introduces (settings : Settings) : Moment → Handle → Key → Value → Prop where
  | value {n : Nat} {name : Mark} {e : Node} {frames : Frames} {m m₁ : Machine} {k : Key}
      {v : Value} (evaluated : (if e.isMissing then pure .nil else evaluateUpTo settings n e :
        Effect Value) m = .done v m₁) (key : Key.ofName? name.lexeme = some k) :
      Introduces settings ⟨n + 1, true, .declare name e, frames, m⟩ m.current k v
  | function {n : Nat} {name : Mark} {params : List Mark} {body : List Node} {frames : Frames}
      {m : Machine} {k : Key} (key : Key.ofName? name.lexeme = some k) :
      Introduces settings ⟨n + 1, true, .function name params body, frames, m⟩ m.current k
        (.function ⟨m.nextId, name, params, body, m.closure⟩)

/-- An assignment is about to bind a name anew, in the nearest scope that binds it. -/
inductive Moment.Assigns (settings : Settings) : Moment → Handle → Key → Value → Prop where
  | intro {n : Nat} {name : Mark} {e : Node} {frames : Frames} {m m₁ : Machine} {h : Handle}
      {k : Key} {v : Value} (evaluated : evaluateUpTo settings n e m = .done v m₁)
      (key : Key.ofName? name.lexeme = some k)
      (nearest : m₁.arena.resolve m₁.current k = .ok (some h)) :
      Assigns settings ⟨n + 1, false, .assign name e, frames, m⟩ h k v

/-- The node is a statement, and no block: it is executed in the current scope. -/
def Moment.StaysInScope (M : Moment) : Prop :=
  M.executing = true ∧ ∀ statements, M.node ≠ .block statements

/-- In the course of the moment a declaration binds a name in its current scope. -/
def Moment.Declaring (settings : Settings) (M : Moment) (h : Handle) (k : Key) (v : Value) : Prop :=
  (M.StaysInScope ∧ h = M.machine.current) ∧
    ∃ D, Relation.ReflTransGen (Leads settings) M D ∧ D.Introduces settings h k v

/-- In the course of the moment an assignment binds a name anew. -/
def Moment.Assigning (settings : Settings) (M : Moment) (h : Handle) (k : Key) (v : Value) : Prop :=
  ∃ N, Relation.ReflTransGen (Leads settings) M N ∧ N.Assigns settings h k v

/-- What has been written in the scopes of the first machine comes from the course of the moment. -/
def Moment.Writes (settings : Settings) (M : Moment) (m m₁ : Machine) : Prop :=
  Arena.Written (M.Declaring settings) (M.Assigning settings) m.arena m₁.arena

variable {settings : Settings} {M N : Moment} {m m₁ m₂ : Machine} {h : Handle} {k : Key}
  {v : Value} {α β : Type}

theorem Moment.Introduces.current (hM : M.Introduces settings h k v) :
    M.machine.current = h := by
  cases hM with
  | value => rfl
  | function => rfl

/-! ### Effects on the arena -/

namespace Effect

theorem onArena_arena (f : Arena Key Value → Arena Key Value × Except Refusal α) (m : Machine) :
    (onArena f m).machine.arena = (f m.arena).1 := by
  rcases h : f m.arena with ⟨arena, r | a⟩
  · rw [onArena_of_error h]
    rfl
  · rw [onArena_of_ok h]
    rfl

theorem blaming_machine (name : Mark) (x : Effect α) (m : Machine) :
    (blaming name x m).machine = (x m).machine := by
  rw [blaming]
  split
  · rename_i h
    rw [h]
    rfl
  · rfl

/-- With the key of a name, or without one. -/
theorem key_cases (name : Mark) (m : Machine) :
    (∃ k, Key.ofName? name.lexeme = some k ∧ key name m = .done k m) ∨
      key name m = .stopped (.broken .name) m := by
  rw [key]
  cases Key.ofName? name.lexeme with
  | none => exact .inr rfl
  | some k => exact .inl ⟨k, rfl, rfl⟩

/-- What an assignment does to the arena. -/
theorem assign_arena (name : Mark) (v : Value) (m : Machine) :
    (assign name v m).machine.arena = m.arena ∨ ∃ k, Key.ofName? name.lexeme = some k ∧
      (assign name v m).machine.arena = (m.arena.assign m.current k v).1 := by
  have hcurrent : gets (·.current) m = .done m.current m := rfl
  obtain ⟨k, hkey, hk⟩ | hstop := key_cases name m
  · refine .inr ⟨k, hkey, ?_⟩
    rw [assign, bind_of_done hk, bind_of_done hcurrent, blaming_machine, onArena_arena]
  · rw [assign, bind_of_stopped hstop]
    exact .inl rfl

/-- What a definition does to the arena. -/
theorem define_arena (scope : Handle) (name : Mark) (v : Value) (m : Machine) :
    (define scope name v m).machine.arena = m.arena ∨ ∃ k, Key.ofName? name.lexeme = some k ∧
      (define scope name v m).machine.arena = (m.arena.define scope k v).1 := by
  obtain ⟨k, hkey, hk⟩ | hstop := key_cases name m
  · refine .inr ⟨k, hkey, ?_⟩
    rw [define, bind_of_done hk, onArena_arena]
  · rw [define, bind_of_stopped hstop]
    exact .inl rfl

namespace WritesOnly

theorem stop (why : Stop) : WritesOnly (Effect.stop why : Effect α) := fun _ => ⟨rfl, rfl⟩

theorem print (line : String) : WritesOnly (Effect.print line) := fun _ => ⟨rfl, rfl⟩

theorem lookUp (name : Mark) : WritesOnly (Effect.lookUp name) := by
  intro m
  have hcurrent : gets (·.current) m = .done m.current m := rfl
  obtain ⟨k, -, hk⟩ | hstop := key_cases name m
  · rw [Effect.lookUp, bind_of_done hk, bind_of_done hcurrent, blaming_machine]
    rcases hget : m.arena.get m.current k with r | v
    · rw [onArena_of_error (Prod.ext rfl hget)]
      exact ⟨rfl, rfl⟩
    · rw [onArena_of_ok (Prod.ext rfl hget)]
      exact ⟨rfl, rfl⟩
  · rw [Effect.lookUp, bind_of_stopped hstop]
    exact ⟨rfl, rfl⟩

theorem unaryValue (op : Mark) (v : Value) : WritesOnly (LoxLang.unaryValue op v) := by
  rcases unaryValue_cases op .missing v with ⟨u, -, h⟩ | ⟨why, -, h⟩
  · exact h ▸ .pure u
  · exact h ▸ .stop why

theorem binaryValue (op : Mark) (v w : Value) : WritesOnly (LoxLang.binaryValue op v w) := by
  rcases binaryValue_cases op .missing .missing v w with ⟨u, -, h⟩ | ⟨why, -, h⟩
  · exact h ▸ .pure u
  · exact h ▸ .stop why

end WritesOnly

/-- What holds of the machine in which the first effect ends, and from there of the one in which the
second one does. -/
theorem bind_induction {P : Machine → Prop} {x : Effect α} {f : α → Effect β}
    (hx : P (x m).machine) (hf : ∀ a n, x m = .done a n → P n → P (f a n).machine) :
    P ((x >>= f) m).machine := by
  cases h : x m with
  | stopped why n =>
    rw [h] at hx
    rwa [bind_of_stopped h]
  | done a n =>
    rw [h] at hx
    rw [bind_of_done h]
    exact hf a n h hx

theorem ite_induction {P : Machine → Prop} {c : Prop} [Decidable c] {x y : Effect α}
    (hx : c → P (x m).machine) (hy : ¬c → P (y m).machine) :
    P ((if c then x else y) m).machine := by
  split
  · exact hx ‹_›
  · exact hy ‹_›

end Effect

/-! ### Rules for what is written -/

namespace Moment.Writes

theorem refl (M : Moment) (m : Machine) : M.Writes settings m m := Arena.Written.refl m.arena

theorem of_arena (hm : M.Writes settings m m₁) (harena : m₂.arena = m₁.arena) :
    M.Writes settings m m₂ := by
  rw [Writes, harena]
  exact hm

theorem trans (hm : M.Writes settings m m₁) (hm₁ : M.Writes settings m₁ m₂) :
    M.Writes settings m m₂ := Arena.Written.trans hm hm₁

/-- Lines make no difference. -/
theorem bind_left {x : Effect α} {f : α → Effect β} (hx : M.Writes settings m (x m₁).machine)
    (hf : ∀ a, (f a).WritesOnly) : M.Writes settings m ((x >>= f) m₁).machine :=
  hx.of_arena (Effect.WritesOnly.bind_left hf m₁).1

/-- What comes from the course of an inner moment comes from that of the outer one, where no
declaration of the inner one introduces anything in a scope that was there before. -/
theorem inner (hMN : Leads settings M N) (hm : M.Writes settings m N.machine)
    (hN : N.Writes settings N.machine m₁)
    (hscope : ∀ s, m.arena.scope N.machine.current = .ok s → N.StaysInScope →
      M.StaysInScope ∧ N.machine.current = M.machine.current) : M.Writes settings m m₁ := by
  refine Arena.Written.trans_of hm hN ?_ ?_
  · rintro h s hs k v ⟨⟨hstays, rfl⟩, D, hND, hD⟩
    exact ⟨hscope s hs hstays, D, .head hMN hND, hD⟩
  · rintro h k v ⟨D, hND, hD⟩
    exact ⟨D, .head hMN hND, hD⟩

end Moment.Writes

/-! ### What is written in the course of a moment -/

/-- At every moment a step further inwards, what is written comes from its course. -/
def Moment.Inside (settings : Settings) (M : Moment) : Prop :=
  ∀ N, Leads settings M N → N.Writes settings N.machine (N.outcome settings).machine

theorem Moment.Fits.current_eq {named : Prop} (hM : M.Fits named) :
    M.machine.current = M.frames.current := (hM.machine False).current

section Expressions

variable {n : Nat} {frames : Frames} {node e : Node}

/-- An operand introduces nothing. -/
theorem writes_of_operand (hinside : M.Inside settings)
    (hleads : Leads settings M ⟨n, false, e, frames, m₁⟩) (hm : M.Writes settings m m₁) :
    M.Writes settings m (evaluateUpTo settings n e m₁).machine :=
  .inner hleads hm (hinside _ hleads) fun _ _ hstays => absurd hstays.1 Bool.false_ne_true

/-- An assignment writes where the name resolves to. -/
theorem writes_of_assign {name : Mark} (hvalue : evaluateUpTo settings n e m = .done v m₁) :
    Moment.Writes settings ⟨n + 1, false, .assign name e, frames, m⟩ m₁
      (Effect.assign name v m₁).machine := by
  obtain harena | ⟨k, hkey, harena⟩ := Effect.assign_arena name v m₁
  · exact (Moment.Writes.refl _ m₁).of_arena harena
  · rw [Moment.Writes, harena]
    exact .assign m₁.arena fun g hg => ⟨_, .refl, .intro hvalue hkey hg⟩

theorem evaluateAll_of_done {evaluate : Node → Effect Value} {es : List Node} {vs : List Value}
    (he : evaluate e m = .done v m₁) (hes : evaluateAll evaluate es m₁ = .done vs m₂) :
    evaluateAll evaluate (e :: es) m = .done (v :: vs) m₂ := by
  rw [evaluateAll, Effect.bind_of_done he, Effect.bind_of_done hes]
  rfl

/-- Operands, one after the other. -/
theorem evaluateAll_induction {evaluate : Node → Effect Value} {P : Machine → Prop} (es : List Node)
    (hstep : ∀ before e after vs m₁, es = before ++ e :: after →
      evaluateAll evaluate before m = .done vs m₁ → P m₁ → P (evaluate e m₁).machine)
    (hm : P m) : P (evaluateAll evaluate es m).machine := by
  induction es generalizing m with
  | nil => exact hm
  | cons e rest ih =>
    refine Effect.bind_induction (hstep [] e rest [] m rfl rfl hm) fun v m₁ hv hm₁ => ?_
    refine Effect.bind_induction (ih (fun before f after vs m₂ hrest hbefore => ?_) hm₁)
      fun _ _ _ h => h
    exact hstep (e :: before) f after (v :: vs) m₂ (by rw [hrest]; rfl)
      (evaluateAll_of_done hv hbefore)

end Expressions

/-! ### Calls -/

section Calls

variable {n : Nat} {frames : Frames} {callee : Node} {paren : Mark} {arguments : List Node}
  {f : Function} {vs : List Value}

/-- The parameters are bound in a scope that was not there before. -/
theorem writes_of_bound {s : Handle} (hfresh : ∀ t, m.arena.scope s ≠ .ok t) (names : List Mark)
    (values : List Value) (hm : M.Writes settings m m₁) :
    M.Writes settings m (bindParameters s names values m₁).machine := by
  induction names generalizing values m₁ with
  | nil => exact hm
  | cons name names ih =>
    cases values with
    | nil => exact hm
    | cons v values =>
      refine Effect.bind_induction ?_ fun _ m₂ _ hm₂ => ih values hm₂
      obtain harena | ⟨k, -, harena⟩ := Effect.define_arena s name v m₁
      · exact hm.of_arena harena
      · rw [Moment.Writes, harena]
        exact Arena.Written.define_apart hm hfresh k v

/-- The scope of a call was not there before. -/
theorem writes_of_opened (htidy : m₁.arena.Tidy)
    (hfresh : ∀ t, m.arena.scope (m₁.arena.push (some f.closure)).2 ≠ .ok t)
    (hm : M.Writes settings m m₁) : M.Writes settings m (openCall f vs m₁).machine := by
  rw [openCall, Effect.bind_of_done (Effect.pushScope_apply f.closure m₁)]
  have hpushed : M.Writes settings m { m₁ with arena := (m₁.arena.push (some f.closure)).1 } :=
    Arena.Written.apart hm hfresh fun g hne => by rw [Arena.scope_push htidy, if_neg hne]
  refine Effect.bind_induction (writes_of_bound hfresh f.params vs hpushed) fun _ m₂ _ hm₂ => ?_
  exact hm₂.of_arena rfl

theorem openCall_scope {s : Handle} (hopened : openCall f vs m = .done s m₁) :
    s = (m.arena.push (some f.closure)).2 := by
  rw [openCall, Effect.bind_of_done (Effect.pushScope_apply f.closure m)] at hopened
  rcases hbound : bindParameters (m.arena.push (some f.closure)).2 f.params vs
      { m with arena := (m.arena.push (some f.closure)).1 } with ⟨_, m₂⟩ | ⟨why, m₂⟩
  · rw [Effect.bind_of_done hbound] at hopened
    cases hopened
    rfl
  · rw [Effect.bind_of_stopped hbound] at hopened
    cases hopened

theorem leaveScope_arena (settings : Settings) (previous left : Handle) (m : Machine) :
    (leaveScope settings previous left m).machine.arena
      = if settings.reclaim then (m.arena.release left).1 else m.arena := by
  rw [leaveScope_apply]
  split
  · exact Effect.onArena_arena _ _
  · rfl

/-- Statements in a scope that was not there before. -/
theorem writes_of_executeIn {execute : Node → Effect Value} {es : List Node} {s : Handle}
    (hfresh : ∀ t, m.arena.scope s ≠ .ok t)
    (hstatements : M.Writes settings m (executeAll execute es { m₁ with current := s }).machine) :
    M.Writes settings m (executeIn settings execute es s m₁).machine := by
  have hmachine : (executeIn settings execute es s m₁).machine = _ := ensuring_machine _ _ m₁
  rw [hmachine, Moment.Writes, leaveScope_arena]
  split
  · exact Arena.Written.release_apart hstatements hfresh
  · exact hstatements

theorem closeCall_arena (execute : Node → Effect Value) (f : Function) (s : Handle) (m : Machine) :
    (closeCall settings execute f s m).machine.arena
      = (executeIn settings execute f.body s m).machine.arena := by
  rw [closeCall, ensuring_machine]
  show (catchReturned _ m).machine.arena = _
  rw [catchReturned_machine]

theorem writes_of_runBody {execute : Node → Effect Value} (htidy : m₁.arena.Tidy)
    (hfresh : ∀ t, m.arena.scope (m₁.arena.push (some f.closure)).2 ≠ .ok t)
    (hm : M.Writes settings m m₁)
    (hbody : ∀ s m₂, openCall f vs m₁ = .done s m₂ → M.Writes settings m m₂ →
      M.Writes settings m (executeAll execute f.body { m₂ with current := s }).machine) :
    M.Writes settings m (runBody settings execute f vs m₁).machine := by
  rw [runBody_eq]
  refine Effect.bind_induction (writes_of_opened htidy hfresh hm) fun s m₂ hopened hm₂ => ?_
  rw [Moment.Writes, closeCall_arena]
  exact writes_of_executeIn (openCall_scope hopened ▸ hfresh) (hbody s m₂ hopened hm₂)

/-- What a call writes, its body writes. -/
theorem writes_of_function {execute : Node → Effect Value}
    (hbody : ∀ m₁, vs.length = f.arity → traceFrom 4 settings (callLine f vs) m = .done () m₁ →
      m₁.calls.length < settings.maxCalls → m₁.arena = m.arena →
        M.Writes settings m (runBody settings execute f vs m₁).machine) :
    M.Writes settings m (call settings execute (.function f) vs paren m).machine := by
  by_cases hcount : vs.length = f.arity
  · obtain ⟨m₁, traced, harena, -⟩ := traceFrom_done 4 settings (callLine f vs) m
    have hlength : Effect.gets (·.calls.length) m₁ = .done m₁.calls.length m₁ := rfl
    rw [Simulation.call_function _ _ _ _ _ hcount, ← callLine, Effect.bind_of_done traced,
      Effect.bind_of_done hlength]
    by_cases hroom : m₁.calls.length < settings.maxCalls
    · rw [if_neg (Nat.not_le.mpr hroom)]
      exact hbody m₁ hcount traced hroom harena
    · rw [if_pos (Nat.not_lt.mp hroom)]
      exact (Moment.Writes.refl M m).of_arena harena
  · rw [call, if_pos hcount]
    exact .refl M m

variable (hreclaim : settings.reclaim = true)
include hreclaim

/-- A call writes nothing but what is assigned in the course of it. -/
theorem writes_of_call
    (hM : Moment.Fits False ⟨n + 1, false, .call callee paren arguments, frames, m⟩)
    (hinside : Moment.Inside settings ⟨n + 1, false, .call callee paren arguments, frames, m⟩)
    (evaluated : evaluateAll (evaluateUpTo settings n) (callee :: arguments) m
      = .done (v :: vs) m₁) :
    Moment.Writes settings ⟨n + 1, false, .call callee paren arguments, frames, m⟩ m₁
      (call settings (executeUpTo settings n) v vs paren m₁).machine := by
  set M : Moment := ⟨n + 1, false, .call callee paren arguments, frames, m⟩
  cases v with
  | function f =>
    obtain ⟨u, -, hm₁, -⟩ := (evaluateAll_fits hreclaim n (hM.machine False)
      fun e _ hnamed => hnamed.elim).fits_of_done evaluated
    refine writes_of_function fun m₂ hcount traced hroom harena => ?_
    have htidy : m₂.arena.Tidy := harena ▸ hm₁.tidy
    have hfresh : ∀ t, m₁.arena.scope (m₂.arena.push (some f.closure)).2 ≠ .ok t := by
      rw [harena]
      exact fun t => Arena.push_fresh hm₁.tidy _
    refine writes_of_runBody htidy hfresh ((Moment.Writes.refl M m₁).of_arena harena) ?_
    intro s m₃ hopened hm₃
    refine executeAll_induction f.body ?_ (hm₃.of_arena rfl)
    intro before e after m₄ hsplit hexecuted hm₄
    have hleads : Leads settings M ⟨n, true, e, .call f s :: frames, m₄⟩ :=
      .body evaluated hcount traced hroom hopened hsplit hexecuted
    -- The statements of the body are executed in the scope of the call.
    have hcurrent : m₄.current = s := (hleads.fits hreclaim hM).current_eq
    refine .inner hleads hm₄ (hinside _ hleads) fun t ht => absurd ht ?_
    show m₁.arena.scope m₄.current ≠ .ok t
    rw [hcurrent, openCall_scope hopened]
    exact hfresh t
  | nil | bool _ | number _ | text _ | integer _ | list _ | record _ => exact .refl M m₁

end Calls

/-! ### Nodes -/

section Nodes

variable {n : Nat} {frames : Frames} {node e : Node} (hreclaim : settings.reclaim = true)
include hreclaim

/-- An expression writes nothing but what is assigned in the course of it. -/
theorem writes_of_expression (hM : Moment.Fits False ⟨n + 1, false, node, frames, m⟩)
    (hinside : Moment.Inside settings ⟨n + 1, false, node, frames, m⟩) :
    Moment.Writes settings ⟨n + 1, false, node, frames, m⟩ m
      (evaluateUpTo settings (n + 1) node m).machine := by
  set M : Moment := ⟨n + 1, false, node, frames, m⟩
  have hself : M.Writes settings m m := .refl M m
  have first {e : Node} {rest : List Node} (hexpression : node.isExpression)
      (hoperands : node.operands = e :: rest) (hgoes : node.GoesOn []) :
      M.Writes settings m (evaluateUpTo settings n e m).machine :=
    writes_of_operand hinside (.operand hexpression (show _ = [] ++ e :: rest from hoperands) rfl
      hgoes) hself
  cases node with
  | literal j => exact hself
  | grouping e => exact first rfl rfl trivial
  | reference name => exact hself.of_arena (Effect.WritesOnly.lookUp name m).1
  | assign name e =>
    refine Effect.bind_induction (first rfl rfl trivial) fun v m₁ hv hm₁ => ?_
    exact .bind_left (hm₁.trans (writes_of_assign hv)) fun _ => .pure v
  | unary op e => exact .bind_left (first rfl rfl trivial) fun v => .unaryValue op v
  | logical left op right =>
    refine Effect.bind_induction (first rfl rfl trivial) fun v m₁ hv hm₁ => ?_
    refine Effect.ite_induction (fun _ => hm₁) fun hgoes => ?_
    exact writes_of_operand hinside (.operand rfl (show _ = [left] ++ right :: [] from rfl)
      (evaluateAll_of_done hv rfl) hgoes) hm₁
  | binary left op right =>
    refine Effect.bind_induction (first rfl rfl trivial) fun v m₁ hv hm₁ => ?_
    refine .bind_left ?_ fun w => .binaryValue op v w
    exact writes_of_operand hinside (.operand rfl (show _ = [left] ++ right :: [] from rfl)
      (evaluateAll_of_done hv rfl) trivial) hm₁
  | call callee paren arguments =>
    refine Effect.bind_induction (first rfl rfl trivial) fun v m₁ hv hm₁ => ?_
    refine Effect.bind_induction (evaluateAll_induction arguments ?_ hm₁) fun vs m₂ hvs hm₂ => ?_
    · intro before e after ws m₂ hsplit hbefore hm₂
      exact writes_of_operand hinside (.operand rfl
        (show _ = (callee :: before) ++ e :: after by rw [hsplit]; rfl)
        (evaluateAll_of_done hv hbefore) trivial) hm₂
    · exact hm₂.trans (writes_of_call hreclaim hM hinside (evaluateAll_of_done hv hvs))
  | missing | many _ | evaluate _ | print _ | declare _ _ | block _ | branch _ _ _ | loop _ _
  | function _ _ _ | giveBack _ _ => exact hself

/-- A block introduces nothing in the scopes that there were. -/
theorem writes_of_block {statements : List Node}
    (hM : Moment.Fits False ⟨n + 1, true, .block statements, frames, m⟩)
    (hinside : Moment.Inside settings ⟨n + 1, true, .block statements, frames, m⟩) :
    Moment.Writes settings ⟨n + 1, true, .block statements, frames, m⟩ m
      (executeUpTo settings (n + 1) (.block statements) m).machine := by
  set M : Moment := ⟨n + 1, true, .block statements, frames, m⟩
  have htidy := (hM.machine False).tidy
  have hfresh : ∀ t, m.arena.scope (m.arena.push (some m.current)).2 ≠ .ok t :=
    fun t => Arena.push_fresh htidy _
  have hmachine : (executeUpTo settings (n + 1) (.block statements) m).machine = _ :=
    executeStep_block_machine settings _ _ n statements m
  rw [hmachine, Moment.Writes, leaveScope_arena, if_pos hreclaim]
  refine Arena.Written.release_apart (executeAll_induction (P := M.Writes settings m) statements ?_
    (Arena.Written.push htidy _)) hfresh
  intro before e after m₁ hsplit hexecuted hm₁
  have hleads : Leads settings M
      ⟨n, true, e, .block (m.arena.push (some m.current)).2 :: frames, m₁⟩ := by
    subst hsplit
    exact .block rfl hexecuted
  -- The statements are executed in the scope of the block.
  have hcurrent : m₁.current = (m.arena.push (some m.current)).2 :=
    (hleads.fits hreclaim hM).current_eq
  refine .inner hleads hm₁ (hinside _ hleads) fun t ht => absurd ht ?_
  show m.arena.scope m₁.current ≠ .ok t
  rw [hcurrent]
  exact hfresh t

/-- A statement in the current scope. -/
theorem writes_of_branch_taken (hM : M.Fits False) (hinside : M.Inside settings)
    (hstays : M.StaysInScope) (hleads : Leads settings M ⟨n, true, e, M.frames, m₁⟩)
    (hm : M.Writes settings m m₁) : M.Writes settings m (executeUpTo settings n e m₁).machine := by
  refine .inner hleads hm (hinside _ hleads) fun _ _ _ => ⟨hstays, ?_⟩
  exact (hleads.fits hreclaim hM).current_eq.trans hM.current_eq.symm

theorem writes_of_branch {condition thenBranch elseBranch : Node}
    (hM : Moment.Fits False ⟨n + 1, true, .branch condition thenBranch elseBranch, frames, m⟩)
    (hinside : Moment.Inside settings
      ⟨n + 1, true, .branch condition thenBranch elseBranch, frames, m⟩) :
    Moment.Writes settings ⟨n + 1, true, .branch condition thenBranch elseBranch, frames, m⟩ m
      (executeUpTo settings (n + 1) (.branch condition thenBranch elseBranch) m).machine := by
  set M : Moment := ⟨n + 1, true, .branch condition thenBranch elseBranch, frames, m⟩
  have hstays : M.StaysInScope := ⟨rfl, fun _ h => by cases h⟩
  have hmachine : (executeUpTo settings (n + 1) (.branch condition thenBranch elseBranch) m).machine
      = _ := executeStep_branch_machine settings _ _ n condition thenBranch elseBranch m
  rw [hmachine]
  have hleads : Leads settings M ⟨n, false, condition, frames, m⟩ :=
    .expression rfl (by simp [Node.operands]) (by simp) (by simp)
  refine Effect.bind_induction (P := M.Writes settings m)
    (writes_of_operand hinside hleads (.refl M m)) fun v m₁ hv hm₁ => ?_
  refine Effect.bind_induction (hm₁.of_arena (Effect.WritesOnly.traceFrom 3 settings _ m₁).1)
    fun _ m₂ htraced hm₂ => ?_
  obtain htaken | ⟨e, htaken⟩ := taken_cases v.isTruthy thenBranch elseBranch
  · rw [htaken]
    exact hm₂
  · rw [htaken]
    have hone : (executeAll (executeUpTo settings n) [e] m₂).machine
        = (executeUpTo settings n e m₂).machine := executeAll_singleton_machine _ e m₂
    rw [hone]
    exact writes_of_branch_taken hreclaim hM hinside hstays
      (.branch hv htraced (by rw [htaken]; exact List.mem_singleton_self e)) hm₂

/-- The rounds of a loop, after some of them. -/
theorem writes_of_rounds {condition body : Node} {j i : Nat}
    (hM : Moment.Fits False ⟨n + 1, true, .loop condition body, frames, m⟩)
    (hinside : Moment.Inside settings ⟨n + 1, true, .loop condition body, frames, m⟩)
    (hrounds : Rounds settings n condition body m i m₁) (hij : i + j = n)
    (hm₁ : Moment.Writes settings ⟨n + 1, true, .loop condition body, frames, m⟩ m m₁) :
    Moment.Writes settings ⟨n + 1, true, .loop condition body, frames, m⟩ m
      (loopUpTo settings n j condition body m₁).machine := by
  induction j generalizing i m₁ with
  | zero => exact hm₁
  | succ j ih =>
    set M : Moment := ⟨n + 1, true, .loop condition body, frames, m⟩
    have hi : i < n := by omega
    rw [loopUpTo_succ]
    refine Effect.bind_induction (P := M.Writes settings m)
      (writes_of_operand hinside (.condition hrounds hi) hm₁) fun v m₂ hv hm₂ => ?_
    refine Effect.ite_induction (fun htruthy => ?_) fun _ => ?_
    · have hbody : M.Writes settings m (executeUpTo settings n body m₂).machine :=
        writes_of_branch_taken hreclaim hM hinside ⟨rfl, fun _ h => by cases h⟩
          (.round hrounds hi hv htruthy) hm₂
      refine Effect.bind_induction hbody fun w m₃ hw hm₃ => ?_
      exact ih (.more hrounds hv htruthy hw) (by omega) hm₃
    · exact hm₂.of_arena (Effect.WritesOnly.bind (.traceFrom 3 settings _) (fun _ => .pure _) m₂).1

omit hreclaim in
/-- A declaration introduces a name in the current scope. -/
theorem writes_of_defineHere {name : Mark} (hM : M.StaysInScope)
    (hcurrent : m₁.current = M.machine.current)
    (hname : ∀ k, Key.ofName? name.lexeme = some k →
      M.Introduces settings M.machine.current k v) :
    M.Writes settings m₁ (Effect.defineHere name v m₁).machine := by
  have hget : Effect.gets (·.current) m₁ = .done m₁.current m₁ := rfl
  rw [Effect.defineHere, Effect.bind_of_done hget]
  obtain harena | ⟨k, hkey, harena⟩ := Effect.define_arena m₁.current name v m₁
  · exact (Moment.Writes.refl M m₁).of_arena harena
  · rw [Moment.Writes, harena, hcurrent]
    exact .define m₁.arena ⟨⟨hM, rfl⟩, M, .refl, hname k hkey⟩

omit hreclaim in
/-- Where there is an initializer, it is evaluated in the current scope. -/
theorem current_of_initializer (hvalue : (if e.isMissing then pure .nil
    else evaluateUpTo settings n e : Effect Value) m = .done v m₁) : m₁.current = m.current := by
  have hcurrent : ((if e.isMissing then pure .nil else evaluateUpTo settings n e : Effect Value)
      m).machine.current = m.current :=
    Effect.ite_induction (P := fun m₁ => m₁.current = m.current) (fun _ => rfl) fun _ =>
      (control_of_related (evaluateUpTo_control settings n e m)).1
  rwa [hvalue] at hcurrent

omit hreclaim in
/-- A function is declared in the current scope, and pinning changes no bindings. -/
theorem writes_of_declareFunction {name : Mark} {params : List Mark} {body : List Node} :
    Moment.Writes settings ⟨n + 1, true, .function name params body, frames, m⟩ m
      (declareFunction settings name params body m).machine := by
  set M : Moment := ⟨n + 1, true, .function name params body, frames, m⟩
  have hstays : M.StaysInScope := ⟨rfl, fun _ h => by cases h⟩
  have hclosure : Effect.gets Machine.closure m = .done m.closure m := rfl
  have hpinned : M.Writes settings m (Effect.pinScope m.closure m).machine := by
    rw [Moment.Writes, Effect.pinScope, Effect.onArena_arena]
    exact .pin m.arena m.closure
  obtain ⟨arena, ⟨_, hpin⟩ | ⟨why, hpin, -⟩⟩ :=
    Effect.OnArena.onArena (fun a => a.pin m.closure) m
  all_goals
    have hpin' : Effect.pinScope m.closure m = _ := hpin
    rw [hpin'] at hpinned
  · have hid : (Effect.gets (·.nextId) : Effect Nat) { m with arena := arena }
        = .done m.nextId { m with arena := arena } := rfl
    have hnext : Effect.modify (fun n => { n with nextId := m.nextId + 1 })
        { m with arena := arena }
          = .done () { m with arena := arena, nextId := m.nextId + 1 } := rfl
    rw [declareFunction_of_pinned hpin', bindFunction, Effect.bind_of_done hid,
      Effect.bind_of_done hnext]
    refine .bind_left ?_ fun _ => .bind (.traceFrom 2 settings _) fun _ => .pure _
    have hpinned' : M.Writes settings m { m with arena := arena, nextId := m.nextId + 1 } :=
      hpinned.of_arena rfl
    exact hpinned'.trans (writes_of_defineHere hstays rfl fun k hkey => .function hkey)
  · rw [declareFunction_eq, Effect.bind_of_done hclosure, Effect.bind_of_stopped hpin']
    exact hpinned

theorem writes_of_statement (hM : Moment.Fits False ⟨n + 1, true, node, frames, m⟩)
    (hinside : Moment.Inside settings ⟨n + 1, true, node, frames, m⟩) :
    Moment.Writes settings ⟨n + 1, true, node, frames, m⟩ m
      (executeUpTo settings (n + 1) node m).machine := by
  set M : Moment := ⟨n + 1, true, node, frames, m⟩
  have hself : M.Writes settings m m := .refl M m
  have operand {e : Node} (hstatement : node.isStatement) (he : e ∈ node.operands)
      (hloop : ∀ condition body, node ≠ .loop condition body)
      (hcalled : ∀ keyword value, node = .giveBack keyword value → m.calls ≠ []) :
      M.Writes settings m (evaluateUpTo settings n e m).machine :=
    writes_of_operand hinside (.expression hstatement he hloop hcalled) hself
  have initializer {e : Node} (hstatement : node.isStatement) (he : node.operands = e.ifPresent)
      (hloop : ∀ condition body, node ≠ .loop condition body)
      (hcalled : ∀ keyword value, node = .giveBack keyword value → m.calls ≠ []) :
      M.Writes settings m ((if e.isMissing then pure .nil
        else evaluateUpTo settings n e : Effect Value) m).machine := by
    refine Effect.ite_induction (fun _ => hself) fun hpresent => ?_
    refine operand hstatement ?_ hloop hcalled
    rw [he]
    exact Node.mem_ifPresent (Bool.eq_false_iff.mpr hpresent)
  cases node with
  | evaluate e => exact operand rfl List.mem_cons_self (by simp) (by simp)
  | print e =>
    exact .bind_left (operand rfl List.mem_cons_self (by simp) (by simp)) fun v =>
      .bind (.print _) fun _ => .pure _
  | declare name e =>
    have hstep : executeUpTo settings (n + 1) (.declare name e) m = _ :=
      congrFun (Simulation.executeStep_declare settings _ _ n name e) m
    rw [hstep]
    refine Effect.bind_induction (P := M.Writes settings m)
      (initializer rfl rfl (by simp) (by simp)) fun v m₁ hv hm₁ => ?_
    refine .bind_left (hm₁.trans ?_) fun _ => .bind (.traceFrom 2 settings _) fun _ => .pure _
    exact writes_of_defineHere ⟨rfl, fun _ h => by cases h⟩ (current_of_initializer hv)
      fun k hkey => .value hv hkey
  | block statements => exact writes_of_block hreclaim hM hinside
  | branch condition thenBranch elseBranch => exact writes_of_branch hreclaim hM hinside
  | loop condition body => exact writes_of_rounds hreclaim hM hinside .none (Nat.zero_add n) hself
  | function name params body =>
    exact writes_of_declareFunction
  | giveBack keyword e =>
    have hstep : executeUpTo settings (n + 1) (.giveBack keyword e) m = _ :=
      Simulation.executeStep_giveBack settings _ _ n keyword e m
    rw [hstep]
    split
    · exact hself
    · rename_i hcalls
      exact .bind_left (initializer rfl rfl (by simp) fun _ _ _ => hcalls) fun v => .stop _
  | missing | many _ | literal _ | grouping _ | unary _ _ | binary _ _ _ | logical _ _ _
  | reference _ | assign _ _ | call _ _ _ => exact hself

/-- Whatever is evaluated or executed, and however it ends: what is written in the scopes that there
were comes from the course of it. -/
theorem writes_of_outcome (hM : M.Fits False) :
    M.Writes settings M.machine (M.outcome settings).machine := by
  obtain ⟨bound, executing, node, frames, m⟩ := M
  induction bound generalizing executing node frames m with
  | zero =>
    cases executing with
    | true => exact .refl _ m
    | false => exact .refl _ m
  | succ n ih =>
    have hinside : Moment.Inside settings ⟨n + 1, executing, node, frames, m⟩ := by
      intro N hleads
      have hN := hleads.fits hreclaim hM
      cases hleads with
      | operand | body | expression | block | branch | condition | round => exact ih _ _ _ _ hN
    cases executing with
    | true => exact writes_of_statement hreclaim hM hinside
    | false => exact writes_of_expression hreclaim hM hinside

end Nodes

/-! ### Sessions -/

section Sessions

variable {request : Request} {requests : List Request} (hreclaim : settings.reclaim = true)
include hreclaim

/-- What a run writes comes from its moments. -/
theorem written_of_run (hm : m.Fits (m.rest False)) :
    Arena.Written (fun h k v => ∃ D, request.Reaches settings m D ∧ D.Introduces settings h k v)
      (fun h k v => ∃ N, request.Reaches settings m N ∧ N.Assigns settings h k v) m.arena
      (request.run settings m).machine.arena := by
  cases hstatements : request.statements? with
  | none =>
    rw [Request.end_of_none hstatements]
    exact .refl m.arena
  | some statements =>
    obtain ⟨m₀, opened, harena, -⟩ := Request.opening_done settings request statements m
    rw [(Request.end_of_statements hstatements opened).1]
    refine executeAll_induction (P := fun n => Arena.Written _ _ m.arena n.arena) statements ?_
      (by rw [harena]; exact .refl m.arena)
    intro before e after m₁ hsplit hexecuted hm₁
    subst hsplit
    have hM : request.Reaches settings m ⟨settings.patience, true, e, [], m₁⟩ :=
      .statement hstatements opened hexecuted
    refine hm₁.trans_of (writes_of_outcome hreclaim (hM.fits hreclaim False.elim hm)) ?_ ?_
    · rintro h - - k v ⟨-, D, hMD, hD⟩
      exact ⟨D, hM.of_leads hMD, hD⟩
    · rintro h k v ⟨N, hMN, hN⟩
      exact ⟨N, hM.of_leads hMN, hN⟩

/-- What some runs write, one after the other, comes from their moments. -/
theorem written_of_session :
    Arena.Written (fun h k v => ∃ D, Reached settings requests D ∧ D.Introduces settings h k v)
      (fun h k v => ∃ N, Reached settings requests N ∧ N.Assigns settings h k v)
      Machine.initial.arena (leftBy settings requests .initial).arena := by
  induction requests using List.reverseRecOn with
  | nil => exact .refl _
  | append_singleton requests request ih =>
    have hmono {P : Moment → Prop} (h : ∃ D, Reached settings requests D ∧ P D) :
        ∃ D, Reached settings (requests ++ [request]) D ∧ P D :=
      h.imp fun D hD => ⟨reached_concat_iff.mpr (.inl hD.1), hD.2⟩
    have hlast {P : Moment → Prop}
        (h : ∃ D, request.Reaches settings (leftBy settings requests .initial) D ∧ P D) :
        ∃ D, Reached settings (requests ++ [request]) D ∧ P D :=
      h.imp fun D hD => ⟨reached_concat_iff.mpr (.inr hD.1), hD.2⟩
    rw [leftBy_concat]
    refine Arena.Written.trans_of (.trans_of (.refl _) ih ?_ ?_)
      (written_of_run hreclaim (rest_fits hreclaim False.elim)) ?_ ?_
    · exact fun _ _ _ _ _ => hmono
    · exact fun _ _ _ => hmono
    · exact fun _ _ _ _ _ => hlast
    · exact fun _ _ _ => hlast

end Sessions

/-! ### Blocks and calls -/

/-- The scopes of the first machine have the same names in the second one, and the values that have
changed are those of names that an assignment in the course of the moment resolved to there. -/
def Moment.Keeps (settings : Settings) (M : Moment) (m m₁ : Machine) : Prop :=
  ∀ h s, m.arena.scope h = .ok s → ∃ t, m₁.arena.scope h = .ok t ∧ t.parent = s.parent ∧
    t.names = s.names ∧ ∀ k, t.find? k = s.find? k ∨ ∃ N v,
      Relation.ReflTransGen (Leads settings) M N ∧ N.Assigns settings h k v ∧ t.find? k = some v

/-- Where no declaration binds a name. -/
theorem Moment.Writes.keeps_of_not_declaring (hm : M.Writes settings m m₁)
    (hnone : ∀ h k v, ¬M.Declaring settings h k v) : M.Keeps settings m m₁ := by
  intro h s hs
  obtain ⟨t, ht, hwritten⟩ := hm h s hs
  refine ⟨t, ht, hwritten.parent, ?_, fun k => ?_⟩
  · obtain ⟨new, hnames, hnew⟩ := hwritten.names
    obtain rfl : new = [] := List.eq_nil_iff_forall_not_mem.mpr fun k hk =>
      (hnew k hk).elim fun v hv => hnone h k v hv
    rw [hnames, List.append_nil]
  · rcases hwritten.values k with heq | ⟨v, hv, hintroduced | ⟨N, hMN, hN⟩⟩
    · exact .inl heq
    · exact absurd hintroduced (hnone h k v)
    · exact .inr ⟨N, v, hMN, hN, hv⟩

theorem Moment.Writes.keeps (hm : M.Writes settings m m₁) (hM : ¬M.StaysInScope) :
    M.Keeps settings m m₁ :=
  hm.keeps_of_not_declaring fun _ _ _ hD => hM hD.1.1

/-- **Blocks and calls keep the names of the scopes around them.**  However the execution of a block
ends, or the evaluation of an expression, or the call of a value in the course of one: every scope
that was there is there, with exactly the names that it had, and the values that have changed were
assigned to names that resolved to it.  An assignment adds no name to any scope.  Other statements
add names to the scopes that there were only by declarations that are executed in these; and so the
global names at the end of a session were all introduced by declarations that were executed while
the global scope was the current one. -/
theorem outer_names_kept (level maxCalls patience : Nat) (requests : List Request) :
    let settings : Settings := ⟨level, true, maxCalls, patience⟩
    (∀ M, Reached settings requests M → (M.executing = false ∨ ∃ es, M.node = .block es) →
      M.Keeps settings M.machine (M.outcome settings).machine) ∧
    (∀ n callee paren arguments frames m v vs m₁,
      Reached settings requests ⟨n + 1, false, .call callee paren arguments, frames, m⟩ →
      evaluateAll (evaluateUpTo settings n) (callee :: arguments) m = .done (v :: vs) m₁ →
      Moment.Keeps settings ⟨n + 1, false, .call callee paren arguments, frames, m⟩ m₁
        (call settings (executeUpTo settings n) v vs paren m₁).machine) ∧
    (∀ name v m h s, m.arena.scope h = .ok s →
      ∃ t, (Effect.assign name v m).machine.arena.scope h = .ok t ∧ t.names = s.names) ∧
    (∀ M, Reached settings requests M → ∀ h s, M.machine.arena.scope h = .ok s →
      ∃ t new, (M.outcome settings).machine.arena.scope h = .ok t ∧ t.names = s.names ++ new ∧
        ∀ k ∈ new, ∃ D v, Relation.ReflTransGen (Leads settings) M D ∧ D.machine.current = h ∧
          D.Introduces settings h k v) ∧
    ∀ k, (leftBy settings requests .initial).arena.bindsAt k Arena.globals →
      ∃ D v, Reached settings requests D ∧ D.machine.current = Arena.globals ∧
        D.Introduces settings Arena.globals k v := by
  intro settings
  have hreclaim : settings.reclaim = true := rfl
  have hfits {M : Moment} (hM : Reached settings requests M) : M.Fits False :=
    hM.fits hreclaim False.elim
  refine ⟨?_, ?_, ?_, ?_, ?_⟩
  · intro M hM hnode
    refine (writes_of_outcome hreclaim (hfits hM)).keeps ?_
    rintro ⟨hexecuting, hblock⟩
    rcases hnode with hnode | ⟨es, hes⟩
    · exact Bool.false_ne_true (hnode.symm.trans hexecuting)
    · exact hblock es hes
  · intro n callee paren arguments frames m v vs m₁ hM hvalues
    refine (writes_of_call hreclaim (hfits hM) ?_ hvalues).keeps fun h => Bool.false_ne_true h.1
    exact fun N hleads => writes_of_outcome hreclaim (hleads.fits hreclaim (hfits hM))
  · intro name v m h s hs
    have hassign : Arena.Written (fun _ _ _ => False) (fun _ _ _ => True) m.arena
        (Effect.assign name v m).machine.arena := by
      obtain harena | ⟨k, -, harena⟩ := Effect.assign_arena name v m
      · rw [harena]
        exact .refl m.arena
      · rw [harena]
        exact .assign m.arena fun _ _ => trivial
    obtain ⟨t, ht, hwritten⟩ := hassign h s hs
    obtain ⟨new, hnames, hnew⟩ := hwritten.names
    obtain rfl : new = [] := List.eq_nil_iff_forall_not_mem.mpr fun k hk =>
      (hnew k hk).elim fun _ => id
    exact ⟨t, ht, by rw [hnames, List.append_nil]⟩
  · intro M hM h s hs
    obtain ⟨t, ht, hwritten⟩ := writes_of_outcome hreclaim (hfits hM) h s hs
    obtain ⟨new, hnames, hnew⟩ := hwritten.names
    refine ⟨t, new, ht, hnames, fun k hk => ?_⟩
    obtain ⟨v, -, D, hMD, hD⟩ := hnew k hk
    exact ⟨D, v, hMD, hD.current, hD⟩
  · intro k hk
    have hinitial : Machine.initial.arena.scope Arena.globals = .ok ⟨none, [], true⟩ := rfl
    obtain ⟨t, ht, hwritten⟩ := (@written_of_session settings requests) hreclaim _ _ hinitial
    obtain ⟨new, hnames, hnew⟩ := hwritten.names
    rw [Arena.bindsAt_of_scope ht, ← Scope.mem_names_iff, hnames] at hk
    obtain ⟨v, D, hD, hintroduces⟩ := hnew k hk
    exact ⟨D, v, hD, hintroduces.current, hintroduces⟩

/-- A call in a block, of a function that binds its own name anew. -/
theorem outer_names_kept_of_call :
    let settings : Settings := ⟨0, true, 8, 8⟩
    let f : Mark := { (default : Mark) with lexeme := .text "f" }
    let declaration : Node := .function f [] [.evaluate (.assign f (.literal .null))]
    let call : Node := .call (.reference f) default []
    let block : Node := .block [.evaluate call]
    let requests := [Request.tree (.many [declaration, block])]
    ∃ M N, Reached settings requests M ∧ M.node = block ∧ Reached settings requests N ∧
      N.node = call ∧ M.Keeps settings M.machine (M.outcome settings).machine ∧
      N.Keeps settings N.machine (N.outcome settings).machine ∧
      (∃ v m₂, evaluateAll (evaluateUpTo settings 5) [.reference f] N.machine = .done [v] m₂ ∧
        N.Keeps settings m₂
          (LoxLang.call settings (executeUpTo settings 5) v [] default m₂).machine) ∧
      ∃ s t, M.machine.arena.scope Arena.globals = .ok s ∧
        (M.outcome settings).machine.arena.scope Arena.globals = .ok t ∧
        s.bindings.map (·.2.isTruthy) = [true] ∧ t.bindings.map (·.2.isTruthy) = [false] := by
  intro settings f declaration call block requests
  have hkept := outer_names_kept 0 8 8 requests
  obtain ⟨m₁, hm₁⟩ : ∃ m₁, executeAll (executeUpTo settings 8) [declaration] .initial
      = .done () m₁ := ⟨_, rfl⟩
  have hblock : Reached settings requests ⟨8, true, block, [], m₁⟩ :=
    ⟨[], _, [], rfl, .statement (show _ = some ([declaration] ++ block :: []) from rfl) rfl hm₁⟩
  let inner : Machine := { m₁ with
    arena := (m₁.arena.push (some m₁.current)).1
    current := (m₁.arena.push (some m₁.current)).2 }
  have hstatement : Reached settings requests
      ⟨7, true, .evaluate call, [.block inner.current], inner⟩ :=
    Reached.inwards hblock (.block rfl (show executeAll _ [] _ = .done () _ from rfl))
  have hcall := Reached.inwards hstatement
    (.expression rfl List.mem_cons_self (by simp) (by simp))
  refine ⟨_, _, hblock, rfl, hcall, rfl, hkept.1 _ hblock (.inr ⟨_, rfl⟩),
    hkept.1 _ hcall (.inl rfl), ?_, ?_⟩
  · obtain ⟨v, m₂, hvalues⟩ : ∃ v m₂, evaluateAll (evaluateUpTo settings 5) [.reference f] inner
        = .done [v] m₂ := by
      cases hm₁
      exact ⟨_, _, rfl⟩
    exact ⟨v, m₂, hvalues, hkept.2.1 _ _ _ _ _ _ _ _ _ hcall hvalues⟩
  · cases hm₁
    exact ⟨_, _, rfl, rfl, rfl, rfl⟩

end LoxLang
