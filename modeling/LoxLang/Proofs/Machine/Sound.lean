/-
A machine that stays sound.

A value is sound if it is a scalar, or a function whose body can be executed, and a machine is
sound if it holds sound values only (`Value.Sound`, `Arena.Holds`).  Trees that make sense keep a
machine sound: they make sound values, they stop only for a reason that is foreseen
(`Stop.Foreseen`), and they give a value back only during a call.  This is a simulation of the
evaluator by itself (`soundSimulation`), whose worlds are the calls under way.

That an operation on scopes is refused counts as foreseen here.  It is ruled out by the
comparison with a machine that keeps all scopes.
-/
import LoxLang.Proofs.Machine.Session
import LoxLang.Proofs.Machine.Trees
import LoxLang.Proofs.Scope.Values

namespace LoxLang

/-! ### Sound values -/

/-- The parameters of the function are names, and its body can be executed. -/
structure Function.Sound (f : Function) : Prop where
  params : ∀ m ∈ f.params, m.IsName
  body : ∀ e ∈ f.body, e.Executable true

/-- The value is a scalar or a sound function. -/
inductive Value.Sound : Value → Prop where
  | scalar {v : Value} (h : v.isScalar) : Sound v
  | function {f : Function} (h : f.Sound) : Sound (.function f)

theorem Value.Sound.of_function {f : Function} (h : (Value.function f).Sound) : f.Sound := by
  cases h with
  | scalar h => cases h
  | function h => exact h

/-- The faults that a program from a source text may have when it is run, with their words. -/
inductive RuntimeFault.Foreseen : RuntimeFault → String → Prop where
  | operand : Foreseen .operand "Operand must be a number."
  | operands : Foreseen .operands "Operands must be numbers."
  | operandsOfPlus : Foreseen .operandsOfPlus "Operands must be two numbers or two strings."
  | notCallable : Foreseen .notCallable "Can only call functions."
  | argumentCount {n k : Nat} (h : n ≠ k) : Foreseen (.argumentCount n k)
      ("Expected " ++ toString n ++ " arguments but got " ++ toString k ++ ".")
  | undefinedVariable (name : String) : Foreseen (.undefinedVariable (.text name))
      ("Undefined variable '" ++ name ++ "'.")
  | stackOverflow : Foreseen .stackOverflow "Stack overflow."

/-- The reasons for which a tree that makes sense may stop. -/
def Stop.Foreseen : Stop → Prop
  | .failed e => e.fault.Foreseen e.fault.message
  | .broken (.scopes _) => True
  | .exhausted => True
  | _ => False

theorem Node.Raises.foreseen {node : Node} {why : Stop} (hnode : node.Evaluable)
    (h : node.Raises why) : why.Foreseen := by
  cases h with
  | operand => exact .operand
  | operands => exact .operands
  | operandsOfPlus => exact .operandsOfPlus
  | unknownOperator hop =>
    cases hnode with
    | binary hknown => exact absurd hknown hop
  | notCallable => exact .notCallable
  | argumentCount h => exact .argumentCount h
  | stackOverflow => exact .stackOverflow
  | notExpression h => cases hnode <;> cases h

/-! ### Soundness as a correspondence -/

/-- Machines correspond when they are the same and sound; a world are the calls under way. -/
def soundness : Correspondence where
  World := List Function
  le v w := v = w
  machines w m m' := m = m' ∧ m.calls = w ∧ m.arena.Holds Value.Sound
  values _ a b := a = b ∧ a.Sound
  halts := Stop.Foreseen
  active w := w ≠ []
  le_refl _ := rfl
  le_trans := Eq.trans
  values_mono _ h := h
  active_mono {v w} h hv := by
    obtain rfl : v = w := h
    exact hv

/-- The same result, of which something holds. -/
def Such {α : Type} (P : α → Prop) (_ : soundness.World) (a b : α) : Prop := a = b ∧ P a

section

variable {α β : Type} {w : soundness.World} {P : α → Prop} {Q : β → Prop}

/-- One effect after another, on two machines that are the same. -/
theorem bind_sound {x : Effect α} {f : α → Effect β}
    {results : soundness.World → β → β → Prop}
    (hx : Effect.Related soundness soundness.Halting (Such P) w x x)
    (hf : ∀ a, P a → Effect.Related soundness soundness.Halting results w (f a) (f a)) :
    Effect.Related soundness soundness.Halting results w (x >>= f) (x >>= f) := by
  refine .bind hx ?_
  rintro u rfl a b ⟨rfl, ha⟩
  exact hf a ha

theorem gets_sound (f : Machine → α) :
    Effect.Related soundness soundness.Halting (Such fun _ => True) w (Effect.gets f)
      (Effect.gets f) := by
  refine .gets ?_
  rintro u - m m' ⟨rfl, -⟩
  exact ⟨rfl, trivial⟩

/-- A change that leaves the calls and the scopes as they are. -/
theorem modify_sound {f : Machine → Machine} (hcalls : ∀ m, (f m).calls = m.calls)
    (harena : ∀ m, (f m).arena = m.arena) :
    Effect.Related soundness soundness.Halting soundness.Anything w (Effect.modify f)
      (Effect.modify f) := by
  refine .modify ?_
  rintro u - m m' ⟨rfl, hm, hholds⟩
  exact ⟨rfl, (hcalls m).trans hm, by rwa [harena]⟩

theorem trace_sound (least : Nat) (settings : Settings) (line : String) :
    Effect.Related soundness soundness.Halting soundness.Anything w
      (traceFrom least settings line) (traceFrom least settings line) := by
  rw [traceFrom]
  split
  · refine modify_sound (fun m => ?_) fun m => ?_
    all_goals
      split
      · rfl
      · split <;> rfl
  · exact .pure fun _ _ => trivial

/-! ### Operations on scopes -/

/-- An operation on scopes that takes a sound arena to a sound one. -/
theorem onArena_sound {f : Arena Key Value → Arena Key Value × Except Refusal α}
    (hf : ∀ a, a.Holds Value.Sound → (f a).1.Holds Value.Sound ∧ ∀ r, (f a).2 = .ok r → P r) :
    Effect.Related soundness soundness.Halting (Such P) w (Effect.onArena f)
      (Effect.onArena f) := by
  refine .diagonal (fun _ _ _ h => h.1) ?_
  rintro u - m ⟨-, hcalls, hholds⟩
  obtain ⟨harena, hresult⟩ := hf m.arena hholds
  rcases hm : f m.arena with ⟨arena, r | a⟩
  · rw [hm] at harena
    rw [Effect.onArena_of_error hm]
    exact .stopped rfl ⟨rfl, hcalls, harena⟩ ⟨rfl, trivial, by simp⟩
  · rw [hm] at harena hresult
    rw [Effect.onArena_of_ok hm]
    exact .done rfl ⟨rfl, hcalls, harena⟩ ⟨rfl, hresult a rfl⟩

/-- An operation on scopes without a result. -/
theorem changeArena_sound {f : Arena Key Value → Arena Key Value × Except Refusal Unit}
    (hf : ∀ a, a.Holds Value.Sound → (f a).1.Holds Value.Sound) :
    Effect.Related soundness soundness.Halting soundness.Anything w (Effect.onArena f)
      (Effect.onArena f) :=
  (onArena_sound (P := fun _ => True) fun a ha => ⟨hf a ha, fun _ _ => trivial⟩).anything

theorem key_sound {name : Mark} (hname : name.IsName) :
    Effect.Related soundness soundness.Halting (Such fun _ => True) w (Effect.key name)
      (Effect.key name) := by
  obtain ⟨s, hs⟩ := hname
  rw [Effect.key, hs]
  exact .pure fun _ _ => ⟨rfl, trivial⟩

/-- A name without a definition is a fault that is foreseen. -/
theorem blaming_sound {name : Mark} {x : Effect α} {results : soundness.World → α → α → Prop}
    (hname : name.IsName) (hx : Effect.Related soundness soundness.Halting results w x x) :
    Effect.Related soundness soundness.Halting results w (Effect.blaming name x)
      (Effect.blaming name x) := by
  obtain ⟨s, hs⟩ := hname
  refine .diagonal (fun _ _ _ h => h.1) fun u hu m hm => ?_
  have h := hx u hu m m hm
  rw [Effect.blaming]
  generalize x m = outcome at h ⊢
  cases h with
  | done grown machines ends => exact .done grown machines ends
  | stopped grown machines ends =>
    split
    · rename_i heq
      cases heq
      -- The fault takes its words from the name, and a name of a tree that was read is a text.
      refine .stopped grown machines ⟨rfl, ?_, by simp⟩
      rw [hs]
      exact .undefinedVariable s
    · exact .stopped grown machines ends

theorem lookUp_sound {name : Mark} (hname : name.IsName) :
    Effect.Related soundness soundness.Halting soundness.values w (Effect.lookUp name)
      (Effect.lookUp name) := by
  refine bind_sound (key_sound hname) fun k _ => bind_sound (gets_sound _) fun h _ => ?_
  refine blaming_sound hname (onArena_sound fun _ ha => ⟨ha, fun v hv => ?_⟩)
  exact ha.get hv

theorem assign_sound {name : Mark} {v : Value} (hname : name.IsName) (hv : v.Sound) :
    Effect.Related soundness soundness.Halting soundness.Anything w (Effect.assign name v)
      (Effect.assign name v) := by
  refine bind_sound (key_sound hname) fun k _ => bind_sound (gets_sound _) fun h _ => ?_
  exact blaming_sound hname (changeArena_sound fun a ha => ha.assign h k hv)

theorem define_sound {scope : Handle} {name : Mark} {v : Value} (hname : name.IsName)
    (hv : v.Sound) :
    Effect.Related soundness soundness.Halting soundness.Anything w (Effect.define scope name v)
      (Effect.define scope name v) :=
  bind_sound (key_sound hname) fun k _ => changeArena_sound fun _ ha => ha.define scope k hv

theorem defineHere_sound {name : Mark} {v : Value} (hname : name.IsName) (hv : v.Sound) :
    Effect.Related soundness soundness.Halting soundness.Anything w (Effect.defineHere name v)
      (Effect.defineHere name v) :=
  bind_sound (gets_sound _) fun _ _ => define_sound hname hv

theorem bindParameters_sound (scope : Handle) {names : List Mark} {values : List Value}
    (hnames : ∀ m ∈ names, m.IsName) (hvalues : ∀ v ∈ values, v.Sound) :
    Effect.Related soundness soundness.Halting soundness.Anything w
      (bindParameters scope names values) (bindParameters scope names values) := by
  induction names generalizing values with
  | nil => exact .pure fun _ _ => trivial
  | cons name names ih =>
    cases values with
    | nil => exact .pure fun _ _ => trivial
    | cons v values =>
      obtain ⟨hname, hnames⟩ := List.forall_mem_cons.mp hnames
      obtain ⟨hv, hvalues⟩ := List.forall_mem_cons.mp hvalues
      refine .seq (define_sound hname hv) ?_
      rintro u rfl _ _
      exact ih hnames hvalues

theorem leaveScope_sound {settings : Settings} {left : Handle} :
    Effect.Related soundness soundness.Halting soundness.Anything w
      (if settings.reclaim then Effect.releaseScope left else pure () : Effect Unit)
      (if settings.reclaim then Effect.releaseScope left else pure () : Effect Unit) := by
  split
  · exact changeArena_sound fun a ha => ha.release left
  · exact .pure fun _ _ => trivial

theorem declareFunction_sound {settings : Settings} {name : Mark} {params : List Mark}
    {body : List Node} (hname : name.IsName) (hparams : ∀ m ∈ params, m.IsName)
    (hbody : ∀ e ∈ body, e.Executable true) :
    Effect.Related soundness soundness.Halting soundness.values w
      (declareFunction settings name params body)
      (declareFunction settings name params body) := by
  rw [declareFunction_eq]
  refine bind_sound (gets_sound _) fun closure _ => ?_
  refine .seq (changeArena_sound fun a ha => ha.pin closure) ?_
  rintro u rfl _ _
  refine bind_sound (gets_sound _) fun id _ => ?_
  refine .seq (modify_sound (fun _ => rfl) fun _ => rfl) ?_
  rintro u rfl _ _
  refine .seq (defineHere_sound hname (.function ⟨hparams, hbody⟩)) ?_
  rintro u rfl _ _
  refine .seq (trace_sound 2 settings _) ?_
  rintro u rfl _ _
  exact .pure fun _ _ => ⟨rfl, .scalar rfl⟩

end

/-! ### Blocks and calls -/

variable {settings : Settings} {execute execute' : Node → Effect Value}

/-- Sound statements correspond, those that are executed in one way and in another. -/
def SoundStatements (execute execute' : Node → Effect Value) : Prop :=
  ∀ (w : soundness.World) (e : Node), e.Executable !w.isEmpty →
    Effect.Related soundness soundness.Leaving soundness.values w (execute e) (execute' e)

theorem executeIn_sound {w : soundness.World} {statements : List Node} {scope : Handle}
    {m : Machine} (hexecute : SoundStatements execute execute')
    (hstatements : ∀ e ∈ statements, e.Executable !w.isEmpty) (hm : soundness.machines w m m) :
    Outcome.Related soundness soundness.Leaving soundness.Anything w
      (executeIn settings execute statements scope m)
      (executeIn settings execute' statements scope m) := by
  have henter : soundness.machines w { m with current := scope } { m with current := scope } :=
    ⟨rfl, hm.2⟩
  refine executeIn_related henter (executeAll_related ?_) ?_
  · rintro e he u rfl
    exact hexecute w e (hstatements e he)
  · rintro u rfl n n' ⟨rfl, hn⟩
    refine ⟨w, rfl, fun _ _ h => h, ?_⟩
    rw [leaveScope_apply]
    exact leaveScope_sound w rfl _ _ ⟨rfl, hn⟩

/-- The beginning of a call: the arguments are bound and one more call is under way, or it stops
with the calls as they were. -/
theorem openCall_sound {w : soundness.World} {f : Function} {arguments : List Value} {m : Machine}
    (hf : f.Sound) (harguments : ∀ v ∈ arguments, v.Sound) (hm : soundness.machines w m m) :
    (∃ scope n, openCall f arguments m = .done scope n ∧ soundness.machines (f :: w) n n) ∨
      ∃ why n, openCall f arguments m = .stopped why n ∧ soundness.machines w n n ∧
        soundness.Halting w why why := by
  obtain ⟨-, hcalls, hholds⟩ := hm
  have h := bindParameters_sound (m.arena.push (some f.closure)).2 hf.params harguments w rfl
    { m with arena := (m.arena.push (some f.closure)).1 } _ ⟨rfl, hcalls, hholds.push _⟩
  rw [openCall, Effect.bind_of_done (Effect.pushScope_apply f.closure m)]
  generalize hn : bindParameters (m.arena.push (some f.closure)).2 f.params arguments
    { m with arena := (m.arena.push (some f.closure)).1 } = outcome at h
  cases h with
  | @done u _ _ n _ grown machines _ =>
    obtain rfl : w = u := grown
    rw [Effect.bind_of_done hn]
    exact .inl ⟨_, _, rfl, rfl, congrArg (f :: ·) machines.2.1, machines.2.2⟩
  | @stopped u why _ n _ grown machines ends =>
    obtain rfl : w = u := grown
    rw [Effect.bind_of_stopped hn]
    exact .inr ⟨why, n, rfl, machines, ends⟩

theorem runBody_sound {w : soundness.World} {f : Function} {arguments : List Value}
    (hexecute : SoundStatements execute execute') (hf : f.Sound)
    (harguments : ∀ v ∈ arguments, v.Sound) :
    Effect.Related soundness soundness.Halting soundness.values w
      (runBody settings execute f arguments) (runBody settings execute' f arguments) := by
  rintro u - m m' ⟨rfl, hm⟩
  rw [runBody_eq, runBody_eq]
  obtain ⟨scope, n, hopen, hn⟩ | ⟨why, n, hopen, hn, hwhy⟩ :=
    openCall_sound hf harguments ⟨rfl, hm⟩
  · rw [Effect.bind_of_done hopen, Effect.bind_of_done hopen]
    -- Inside the call the world is one call longer, so the body may give a value back.
    refine closeCall_related (fun _ => ⟨rfl, .scalar rfl⟩)
      (executeIn_sound (w := f :: u) hexecute hf.body hn) ?_
    rintro v rfl k k' ⟨rfl, hcalls, hholds⟩
    exact ⟨u, rfl, ⟨rfl, congrArg List.tail hcalls, hholds⟩, fun _ _ h => h⟩
  · rw [Effect.bind_of_stopped hopen, Effect.bind_of_stopped hopen]
    exact .stopped rfl hn hwhy

/-! ### Soundness as a simulation -/

/-- Trees that make sense keep a machine sound. -/
def soundSimulation (settings : Settings) : Simulation settings settings where
  toCorrespondence := soundness
  expression _ e := e.Evaluable
  statement w e := e.Executable !w.isEmpty
  expression_mono _ h := h
  statement_mono {v w e} h he := by
    obtain rfl : v = w := h
    exact he
  expression_operand h he := h.operand he
  statement_operand h he := h.operand he
  statement_branch h _ he := h.branch_of_mem he
  maxCalls_eq := settings.maxCalls_self
  calls_length h := by rw [h.1]
  unscoped_eq h := by rw [h.1]
  scalar h := ⟨rfl, .scalar h⟩
  literal h := by
    cases h with
    | literal h => exact ⟨rfl, .scalar h⟩
  exhausted := trivial
  raises hnode h := h.foreseen hnode
  notStatement h hnot := absurd h.isStatement (by rw [hnot]; exact Bool.false_ne_true)
  topLevelReturn {w keyword e m m'} h hm hcalls := by
    -- Outside all calls no tree that can be executed gives a value back.
    obtain rfl : w = [] := hm.2.1.symm.trans hcalls
    exact absurd h.inside_of_giveBack Bool.false_ne_true
  active_of_calls {w m m'} hm hcalls := by
    show w ≠ []
    rw [← hm.2.1]
    exact hcalls
  print line := modify_sound (fun _ => rfl) fun _ => rfl
  report line := modify_sound (fun _ => rfl) fun _ => rfl
  trace least line := trace_sound least settings line
  lookUp h := by
    cases h with
    | reference hname => exact lookUp_sound hname
  assign {w name e a b} h hab := by
    obtain ⟨rfl, ha⟩ := hab
    cases h with
    | assign hname _ => exact assign_sound hname ha
  declare {w name e a b} h hab := by
    obtain ⟨rfl, ha⟩ := hab
    exact defineHere_sound h.isName_of_declare ha
  declareFunction h :=
    declareFunction_sound h.names_of_function.1 h.names_of_function.2 h.body_of_function
  block {w execute execute' statements} hexecute h := by
    rintro u rfl m m' ⟨rfl, hcalls, hholds⟩
    rw [executeBlock_apply, executeBlock_apply]
    refine executeIn_sound hexecute (fun e he => ?_) ⟨rfl, hcalls, hholds.push _⟩
    exact h.branch_of_mem he
  body {w execute execute' f f' arguments arguments'} hexecute hf hs _ := by
    obtain ⟨heq, hf⟩ := hf
    cases heq
    obtain ⟨harguments, hs⟩ := (List.forall₂_and_left _ _).mp (hs.imp fun _ _ => And.symm)
    obtain rfl : arguments = arguments' := List.forall₂_eq_eq_eq ▸ hs
    exact runBody_sound hexecute hf.of_function harguments

end LoxLang
