/-
Which scopes are pinned.

Only the declaration of a function outside all calls pins scopes: the current one and those around
it (`Moment.Declares`, `pinned_of_declared`).  Nothing that comes afterwards gives a pinned scope
up (`Machine.GrowsTo`).

* `pinned_of_outcome` — what is pinned when a statement has been executed was pinned before, or
  is pinned by a declaration in the course of the statement;
* `grows_of_declared` — what such a declaration pins is pinned when the statement has been executed.
-/
import LoxLang.Proofs.Machine.Moments

namespace LoxLang

/-! ### How statements end -/

/-- However the first effect ends, the machine that is left is the one that the second leaves. -/
theorem ensuring_machine {α : Type} (x : Effect α) (last : Effect Unit) (m : Machine) :
    (Effect.ensuring x last m).machine = (last (x m).machine).machine := by
  rw [Effect.ensuring]
  rcases x m with ⟨a, n⟩ | ⟨why, n⟩
  all_goals
    dsimp only [Outcome.machine]
    rcases last n with ⟨_, k⟩ | ⟨why', k⟩
    · rfl
    · rfl

theorem catchReturned_machine (body : Effect Unit) (m : Machine) :
    (catchReturned body m).machine = (body m).machine := by
  rw [catchReturned]
  rcases body m with ⟨_, n⟩ | ⟨why, n⟩
  · rfl
  · cases why <;> rfl

theorem bind_pure_machine {α β : Type} (x : Effect α) (b : β) (m : Machine) :
    ((x >>= fun _ => pure b) m).machine = (x m).machine := by
  cases h : x m with
  | done a n =>
    rw [Effect.bind_of_done h]
    rfl
  | stopped why n =>
    rw [Effect.bind_of_stopped h]
    rfl

/-- The effect writes lines at most: scopes and functions are as before. -/
def Effect.WritesOnly {α : Type} (x : Effect α) : Prop :=
  ∀ m, (x m).machine.arena = m.arena ∧ (x m).machine.nextId = m.nextId

namespace Effect.WritesOnly

variable {α β : Type}

theorem pure (a : α) : WritesOnly (Pure.pure a : Effect α) := fun _ => ⟨rfl, rfl⟩

theorem report (line : String) : WritesOnly (Effect.report line) := fun _ => ⟨rfl, rfl⟩

theorem trace (level : Nat) (line : String) : WritesOnly (Effect.trace level line) := by
  intro m
  show (if _ then m else if _ then _ else _ : Machine).arena = m.arena ∧
    (if _ then m else if _ then _ else _ : Machine).nextId = m.nextId
  split
  · exact ⟨rfl, rfl⟩
  · split
    · exact ⟨rfl, rfl⟩
    · exact ⟨rfl, rfl⟩

theorem traceFrom (least : Nat) (settings : Settings) (line : String) :
    WritesOnly (LoxLang.traceFrom least settings line) := by
  rw [LoxLang.traceFrom]
  split
  · exact .trace _ line
  · exact .pure ()

/-- What only writes may come first or last. -/
theorem bind_left {x : Effect α} {f : α → Effect β} (hf : ∀ a, WritesOnly (f a)) (m : Machine) :
    ((x >>= f) m).machine.arena = (x m).machine.arena ∧
      ((x >>= f) m).machine.nextId = (x m).machine.nextId := by
  cases h : x m with
  | stopped why n =>
    rw [bind_of_stopped h]
    exact ⟨rfl, rfl⟩
  | done a n =>
    rw [bind_of_done h]
    exact hf a n

theorem bind {x : Effect α} {f : α → Effect β} (hx : WritesOnly x) (hf : ∀ a, WritesOnly (f a)) :
    WritesOnly (x >>= f) := by
  intro m
  obtain ⟨harena, hid⟩ := bind_left (x := x) hf m
  exact ⟨harena.trans (hx m).1, hid.trans (hx m).2⟩

end Effect.WritesOnly

variable {settings : Settings} {evaluate execute : Node → Effect Value} {m m₁ : Machine}

theorem executeAll_of_done {e : Node} {v : Value} (h : execute e m = .done v m₁)
    (es : List Node) : executeAll execute (e :: es) m = executeAll execute es m₁ :=
  Effect.bind_of_done h

theorem executeAll_of_stopped {e : Node} {why : Stop} (h : execute e m = .stopped why m₁)
    (es : List Node) : executeAll execute (e :: es) m = .stopped why m₁ :=
  Effect.bind_of_stopped h

/-- A machine at the end of some statements, from the machine at the end of each one. -/
theorem executeAll_induction {P : Machine → Prop} (es : List Node)
    (hstep : ∀ before e after m₁, es = before ++ e :: after →
      executeAll execute before m = .done () m₁ → P m₁ → P (execute e m₁).machine)
    (hm : P m) : P (executeAll execute es m).machine := by
  induction es generalizing m with
  | nil => exact hm
  | cons e rest ih =>
    have hfirst := hstep [] e rest m rfl rfl hm
    cases h : execute e m with
    | stopped why n =>
      rw [h] at hfirst
      rwa [executeAll_of_stopped h]
    | done v n =>
      rw [h] at hfirst
      rw [executeAll_of_done h]
      refine ih (fun before f after m₁ hrest hbefore => ?_) hfirst
      refine hstep (e :: before) f after m₁ (by rw [hrest]; rfl) ?_
      rwa [executeAll_of_done h]

theorem executeAll_append {before : List Node} (h : executeAll execute before m = .done () m₁)
    (es : List Node) : executeAll execute (before ++ es) m = executeAll execute es m₁ := by
  induction before generalizing m with
  | nil =>
    cases h
    rfl
  | cons e before ih =>
    rw [List.cons_append]
    cases he : execute e m with
    | stopped why n =>
      rw [executeAll_of_stopped he] at h
      cases h
    | done v n =>
      rw [executeAll_of_done he] at h ⊢
      exact ih h

/-- The machine at the end of a block. -/
theorem executeStep_block_machine (settings : Settings) (evaluate execute : Node → Effect Value)
    (rounds : Nat) (statements : List Node) (m : Machine) :
    (executeStep settings evaluate execute rounds (.block statements) m).machine =
      (leaveScope settings m.current (m.arena.push (some m.current)).2
        (executeAll execute statements { m with
          arena := (m.arena.push (some m.current)).1
          current := (m.arena.push (some m.current)).2 }).machine).machine := by
  rw [Simulation.executeStep_block, bind_pure_machine, executeBlock_apply, executeIn_apply]
  exact ensuring_machine _ _ _

theorem Effect.bind_assoc {α β γ : Type} (x : Effect α) (f : α → Effect β) (g : β → Effect γ) :
    x >>= f >>= g = x >>= fun a => f a >>= g := by
  funext m
  cases h : x m with
  | stopped why n => rw [bind_of_stopped (bind_of_stopped h), bind_of_stopped h]
  | done a n =>
    rw [bind_of_done h]
    cases hf : f a n with
    | done b k => rw [bind_of_done ((bind_of_done h).trans hf), bind_of_done hf]
    | stopped why k => rw [bind_of_stopped ((bind_of_done h).trans hf), bind_of_stopped hf]

theorem Effect.whileTrue_succ (condition : Effect Bool) (body : Effect Unit) (n : Nat) :
    Effect.whileTrue condition body (n + 1) = condition >>= fun holds =>
      if holds then body >>= fun _ => Effect.whileTrue condition body n else pure () := by
  funext m
  rw [Effect.whileTrue]
  cases h : condition m with
  | stopped why k => rw [bind_of_stopped h]
  | done holds k =>
    rw [bind_of_done h]
    cases holds with
    | false => rfl
    | true =>
      rw [if_pos rfl]
      cases hbody : body k with
      | done _ j =>
        refine Eq.trans ?_ (bind_of_done hbody).symm
        dsimp only
        rw [hbody]
      | stopped why j =>
        refine Eq.trans ?_ (bind_of_stopped hbody).symm
        dsimp only
        rw [hbody]

/-- A loop, one round after the other. -/
theorem executeStep_loop_succ (settings : Settings) (evaluate execute : Node → Effect Value)
    (rounds : Nat) (condition body : Node) :
    executeStep settings evaluate execute (rounds + 1) (.loop condition body) =
      evaluate condition >>= fun v =>
        if v.isTruthy then
          execute body >>= fun _ => executeStep settings evaluate execute rounds (.loop condition body)
        else traceFrom 3 settings ("while on line " ++ condition.line.shown ++ " finished") >>=
          fun _ => pure .nil := by
  have hmap : Value.isTruthy <$> evaluate condition = evaluate condition >>= fun v =>
      pure v.isTruthy := rfl
  rw [Simulation.executeStep_loop, Simulation.executeStep_loop, Effect.whileTrue_succ,
    Effect.bind_assoc, hmap, Effect.bind_assoc]
  congr 1
  funext v
  cases v.isTruthy with
  | false => rfl
  | true =>
    exact (Effect.bind_assoc (execute body >>= fun _ => pure ()) _ _).trans
      (Effect.bind_assoc (execute body) _ _)

/-- A loop with so many rounds to go at most. -/
def loopUpTo (settings : Settings) (n rounds : Nat) (condition body : Node) : Effect Value :=
  executeStep settings (evaluateUpTo settings n) (executeUpTo settings n) rounds
    (.loop condition body)

theorem loopUpTo_succ (settings : Settings) (n rounds : Nat) (condition body : Node) :
    loopUpTo settings n (rounds + 1) condition body =
      Bind.bind (m := Effect) (evaluateUpTo settings n condition) fun v =>
        if v.isTruthy then
          Bind.bind (m := Effect) (executeUpTo settings n body) fun _ =>
            loopUpTo settings n rounds condition body
        else traceFrom 3 settings ("while on line " ++ condition.line.shown ++ " finished") >>=
          fun _ => pure .nil :=
  executeStep_loop_succ settings _ _ rounds condition body

/-- A branch, as far as the machine is concerned. -/
theorem executeStep_branch_machine (settings : Settings) (evaluate execute : Node → Effect Value)
    (rounds : Nat) (condition thenBranch elseBranch : Node) (m : Machine) :
    (executeStep settings evaluate execute rounds (.branch condition thenBranch elseBranch) m).machine =
      ((evaluate condition >>= fun v =>
        traceFrom 3 settings (branchLine condition v) >>= fun _ =>
          executeAll execute (if v.isTruthy then [thenBranch] else elseBranch.ifPresent)) m).machine := by
  rw [Simulation.executeStep_branch]
  cases h : evaluate condition m with
  | stopped why n => rw [Effect.bind_of_stopped h, Effect.bind_of_stopped h]; rfl
  | done v n =>
    have hline : "if on line " ++ condition.line.shown ++ " -> " ++ verdict v.isTruthy
        = branchLine condition v := rfl
    rw [Effect.bind_of_done h, Effect.bind_of_done h, ← Effect.bind_assoc, bind_pure_machine, hline]
    cases htrace : traceFrom 3 settings (branchLine condition v) n with
    | stopped why k => rw [Effect.bind_of_stopped htrace, Effect.bind_of_stopped htrace]; rfl
    | done _ k =>
      rw [Effect.bind_of_done htrace, Effect.bind_of_done htrace]
      cases v.isTruthy with
      | true => exact (bind_pure_machine _ () k).symm
      | false =>
        rw [Node.ifPresent]
        cases elseBranch.isMissing with
        | true => rfl
        | false => exact (bind_pure_machine _ () k).symm

/-! ### Declarations -/

/-- A function is declared, and no call is under way. -/
structure Moment.Declares (M : Moment) : Prop where
  bounded : M.bound ≠ 0
  executing : M.executing = true
  function : ∃ name params body, M.node = .function name params body
  outside : M.machine.calls = []

/-- In the course of a moment, a function is declared that closes over a scope, outside all calls. -/
def Moment.Pins (settings : Settings) (M : Moment) (h : Handle) : Prop :=
  ∃ D, Relation.ReflTransGen (Leads settings) M D ∧ D.Declares ∧
    h ∈ D.frames.scopes ++ [Arena.globals]

theorem Moment.Pins.head {M N : Moment} {h : Handle} (hMN : Leads settings M N)
    (hN : N.Pins settings h) : M.Pins settings h := by
  obtain ⟨D, hND, hD, hh⟩ := hN
  exact ⟨D, .head hMN hND, hD, hh⟩

/-- What is pinned in this machine was pinned at the moment, or is pinned by a declaration in the
course of it. -/
def Moment.Accounts (settings : Settings) (M : Moment) (k : Machine) : Prop :=
  ∀ h, k.arena.shape.Pinned h → M.machine.arena.shape.Pinned h ∨ M.Pins settings h

variable {named : Prop} {M N : Moment} {h : Handle}

theorem Moment.Fits.calls (hM : M.Fits named) : M.machine.calls = M.frames.calls :=
  (hM.machine False).calls

/-- Declaring a function outside all calls begins with pinning the current scope and those around
it. -/
theorem Moment.Declares.pin (settings : Settings) (hD : M.Declares) (hM : M.Fits False) :
    ∃ v n name params body, (M.layout False False).Le v ∧ n.Fits v ∧
      v.shape.Pinned M.machine.closure ∧
      v.shape = M.machine.arena.shape.pin (M.frames.scopes ++ [Arena.globals]) ∧
      M.outcome settings = bindFunction settings name params body M.machine.closure n := by
  obtain ⟨hbound, hexecuting, ⟨name, params, body, hnode⟩, hcalls⟩ := hD
  have hnone : M.frames.calls = [] := hM.calls.symm.trans hcalls
  obtain ⟨bound, executing, node, frames, m⟩ := M
  obtain ⟨n, rfl⟩ := Nat.exists_eq_succ_of_ne_zero hbound
  obtain rfl : executing = true := hexecuting
  obtain rfl : node = .function name params body := hnode
  obtain ⟨v, k, hv, hpin, hk, hpinned, hshape⟩ := pinClosure_fits False.elim (hM.machine False)
  exact ⟨v, k, name, params, body, hv, hk, hpinned, hshape hnone, declareFunction_of_pinned hpin⟩

/-- The function that is declared counts as one more. -/
theorem next_of_declared (hM : M.Fits False) (hD : M.Declares) :
    M.machine.nextId < (M.outcome settings).machine.nextId := by
  obtain ⟨v, n, name, params, body, hv, hn, hpinned, -, houtcome⟩ := hD.pin settings hM
  have hbind : Outcome.Related layout layout.Halting layout.values
      { v with declared := v.declared + 1 }
      (bindFunction settings name params body M.machine.closure n) _ :=
    bindFunction_fits hn hpinned fun h => False.elim (hv.named.mp h)
  obtain ⟨u, hu, hend⟩ := hbind.fits
  rw [houtcome, hend.declared]
  exact (Nat.succ_le_succ hv.declared).trans hu.declared

/-- Declaring a function outside all calls pins the current scope and those around it. -/
theorem pinned_of_declared (hM : M.Fits False) (hD : M.Declares) :
    (M.outcome settings).machine.arena.shape.Pinned h ↔
      M.machine.arena.shape.Pinned h ∨ h ∈ M.frames.scopes ++ [Arena.globals] := by
  obtain ⟨v, n, name, params, body, -, hn, -, hshape, houtcome⟩ := hD.pin settings hM
  -- After the scopes have been pinned, nothing changes but bindings.
  have hrest : Effect.Rebinds (fun _ => True)
      (bindFunction settings name params body M.machine.closure) :=
    .bind (.gets _) fun id => .bind (.modify fun _ => rfl) fun _ =>
      .bind (defineHere_rebinds name trivial) fun _ => .bind (.traceFrom 2 settings _) fun _ => .pure _
  have hm := hM.machine False
  have hchain := hm.proper.chain_outside (hM.calls.symm.trans hD.outside)
  rw [houtcome, (hrest n).shape, hn.shape, hshape]
  exact Shape.pinned_pin_iff fun g hg => hchain.isSome_of_mem hg

/-! ### What is pinned was declared -/

theorem traceFrom_done (least : Nat) (settings : Settings) (line : String) (m : Machine) :
    ∃ n, traceFrom least settings line m = .done () n ∧ n.arena = m.arena ∧
      n.nextId = m.nextId := by
  have hwrites := Effect.WritesOnly.traceFrom least settings line m
  cases h : traceFrom least settings line m with
  | done _ n =>
    rw [h] at hwrites
    exact ⟨n, rfl, hwrites⟩
  | stopped why n =>
    rw [traceFrom] at h
    split at h
    · cases h
    · cases h

/-- There is at most one branch to take. -/
theorem taken_cases (condition : Bool) (f g : Node) :
    (if condition then [f] else g.ifPresent) = [] ∨
      ∃ e, (if condition then [f] else g.ifPresent) = [e] := by
  rw [Node.ifPresent]
  split
  · exact .inr ⟨f, rfl⟩
  · split
    · exact .inl rfl
    · exact .inr ⟨g, rfl⟩

theorem executeAll_singleton_machine (execute : Node → Effect Value) (e : Node) (m : Machine) :
    (executeAll execute [e] m).machine = (execute e m).machine :=
  bind_pure_machine (execute e) () m

/-- The second machine comes later: what is pinned stays, and functions are declared in turn. -/
structure Machine.GrowsTo (m n : Machine) : Prop where
  pinned : ∀ h, m.arena.shape.Pinned h → n.arena.shape.Pinned h
  declared : m.nextId ≤ n.nextId

theorem Machine.GrowsTo.refl (m : Machine) : m.GrowsTo m := ⟨fun _ h => h, Nat.le_refl _⟩

theorem Machine.GrowsTo.trans {m n k : Machine} (hmn : m.GrowsTo n) (hnk : n.GrowsTo k) :
    m.GrowsTo k :=
  ⟨fun h hh => hnk.pinned h (hmn.pinned h hh), hmn.declared.trans hnk.declared⟩

/-- A machine that fits a layout grows to any one that fits what the layout becomes. -/
theorem Machine.Fits.growsTo {v w : Layout} {n : Machine} (hm : m.Fits v) (hvw : v.Le w)
    (hn : n.Fits w) : m.GrowsTo n := by
  refine ⟨fun h hh => ?_, ?_⟩
  · rw [hm.shape] at hh
    rw [hn.shape]
    exact hvw.persists.pinned hh
  · rw [hm.declared, hn.declared]
    exact hvw.declared

theorem Outcome.Related.growsTo {α β : Type} {stops : layout.World → Stop → Stop → Prop}
    {results : layout.World → α → β → Prop} {w : Layout} {x : Outcome α} {y : Outcome β}
    (h : Outcome.Related layout stops results w x y) (hm : m.Fits w) : m.GrowsTo x.machine := by
  obtain ⟨v, hv, hn⟩ := h.fits
  exact hm.growsTo hv hn

section

variable (hreclaim : settings.reclaim = true)
include hreclaim

/-- Evaluating an expression pins nothing. -/
theorem pinned_of_evaluated {w : Layout} (hm : m.Fits w) (hnamed : w.named = False) (n : Nat)
    (e : Node) :
    (evaluateUpTo settings n e m).machine.arena.shape.Pinned h ↔ m.arena.shape.Pinned h := by
  have hstill : m.Fits { w with still := True } := hm.of_eq rfl rfl rfl rfl rfl
  rw [hm.shape]
  refine (evaluateUpTo_fits hreclaim n hstill fun hnames => ?_).pinned_iff (.inl trivial) h
  exact (hnamed ▸ hnames : False).elim

/-- Nor does a simple statement, or any statement during a call. -/
theorem pinned_of_simple (hM : M.Fits False) (hexecuting : M.executing = true)
    (hsimple : M.machine.calls ≠ [] ∨ M.node.IsSimple) :
    (M.outcome settings).machine.arena.shape.Pinned h ↔ M.machine.arena.shape.Pinned h := by
  rw [hM.calls] at hsimple
  rw [Moment.outcome, if_pos hexecuting]
  exact (executeUpTo_fits hreclaim _ (hM.machine True)
    ⟨False.elim, fun _ => hsimple⟩).pinned_iff (.inl trivial) h

/-- Leaving a block pins nothing. -/
theorem block_left {n : Nat} {statements : List Node} {frames : Frames} {inner left : Machine}
    (hM : Moment.Fits False ⟨n + 1, true, .block statements, frames, m⟩)
    (hinner : (executeAll (executeUpTo settings n) statements { m with
      arena := (m.arena.push (some m.current)).1
      current := (m.arena.push (some m.current)).2 }).machine = inner)
    (hleft : (executeUpTo settings (n + 1) (.block statements) m).machine = left) :
    inner.GrowsTo left ∧ ∀ h, left.arena.shape.Pinned h → inner.arena.shape.Pinned h := by
  have hm := hM.machine False
  obtain ⟨s, hs, -, henter⟩ := hm.enterBlock
  have hmachine : (executeUpTo settings (n + 1) (.block statements) m).machine = _ :=
    executeStep_block_machine settings _ _ n statements m
  rw [hmachine] at hleft
  rw [hs] at hinner hleft
  rw [hinner] at hleft
  obtain ⟨v, hv, hk⟩ := (executeAll_fits hreclaim n henter
    fun e (_ : e ∈ statements) => ⟨False.elim, False.elim⟩).fits
  rw [hinner] at hk
  obtain ⟨τ, k, hτ, hleave, hk'⟩ := hk.leave hreclaim hv.frames
  have hleave' : leaveScope settings m.current s inner = .done () k := by
    rw [hm.current]
    exact hleave
  rw [hleave'] at hleft
  obtain rfl : k = left := hleft
  refine ⟨⟨fun h hh => ?_, (hk.declared.trans hk'.declared.symm).le⟩, fun h hh => ?_⟩
  · rw [hk.shape] at hh
    rw [hk'.shape]
    exact hτ.pinned_iff.mpr hh
  · rw [hk'.shape] at hh
    rw [hk.shape]
    exact hτ.pinned_iff.mp hh

omit hreclaim in
theorem Moment.Accounts.of_pinned {k k' : Machine} (hk : M.Accounts settings k)
    (hpinned : ∀ h, k'.arena.shape.Pinned h → k.arena.shape.Pinned h) : M.Accounts settings k' :=
  fun h hh => hk h (hpinned h hh)

omit hreclaim in
/-- What an inner moment accounts for, the outer one does. -/
theorem Moment.Accounts.of_leads {k : Machine} (hMN : Leads settings M N)
    (hN : M.Accounts settings N.machine) (hk : N.Accounts settings k) : M.Accounts settings k := by
  intro h hh
  rcases hk h hh with hh | hh
  · exact hN h hh
  · exact .inr (hh.head hMN)

/-- It makes no difference whether an expression is evaluated. -/
theorem Moment.Accounts.evaluated (hm : M.Accounts settings m) {w : Layout} (hw : m.Fits w)
    (hnamed : w.named = False) (n : Nat) (e : Node) :
    M.Accounts settings (evaluateUpTo settings n e m).machine :=
  hm.of_pinned fun _ => (pinned_of_evaluated hreclaim hw hnamed n e).mp

section

variable {n : Nat} {frames : Frames}

theorem accounts_of_block {statements : List Node}
    (hM : Moment.Fits False ⟨n + 1, true, .block statements, frames, m⟩)
    (hinside : ∀ N, Leads settings ⟨n + 1, true, .block statements, frames, m⟩ N →
      N.executing = true → N.Accounts settings (N.outcome settings).machine) :
    Moment.Accounts settings ⟨n + 1, true, .block statements, frames, m⟩
      (executeUpTo settings (n + 1) (.block statements) m).machine := by
  have hm := hM.machine False
  set inner : Machine := { m with
    arena := (m.arena.push (some m.current)).1
    current := (m.arena.push (some m.current)).2 } with hinner
  have hleft := (block_left hreclaim hM rfl rfl).2
  refine Moment.Accounts.of_pinned (k := (executeAll (executeUpTo settings n) statements inner).machine)
    (executeAll_induction statements ?_ ?_) hleft
  · intro before e after m₁ hsplit hbefore hm₁
    subst hsplit
    have hleads : Leads settings ⟨n + 1, true, .block (before ++ e :: after), frames, m⟩
        ⟨n, true, e, .block inner.current :: frames, m₁⟩ := .block rfl hbefore
    exact .of_leads hleads hm₁ (hinside _ hleads rfl)
  · intro h hh
    rw [hinner, Arena.shape_push hm.tidy] at hh
    exact .inl (Shape.pinned_of_push hh)

theorem accounts_of_branch {condition thenBranch elseBranch : Node}
    (hM : Moment.Fits False ⟨n + 1, true, .branch condition thenBranch elseBranch, frames, m⟩)
    (hinside : ∀ N, Leads settings ⟨n + 1, true, .branch condition thenBranch elseBranch, frames, m⟩ N →
      N.executing = true → N.Accounts settings (N.outcome settings).machine) :
    Moment.Accounts settings ⟨n + 1, true, .branch condition thenBranch elseBranch, frames, m⟩
      (executeUpTo settings (n + 1) (.branch condition thenBranch elseBranch) m).machine := by
  set M : Moment := ⟨n + 1, true, .branch condition thenBranch elseBranch, frames, m⟩
  have hmachine : (executeUpTo settings (n + 1) (.branch condition thenBranch elseBranch) m).machine
      = _ := executeStep_branch_machine settings _ _ n condition thenBranch elseBranch m
  have hself : M.Accounts settings m := fun h => .inl
  have hcondition := hself.evaluated hreclaim (hM.machine False) rfl n condition
  rw [hmachine]
  cases hc : evaluateUpTo settings n condition m with
  | stopped why m₁ =>
    rw [hc] at hcondition
    rw [Effect.bind_of_stopped hc]
    exact hcondition
  | done v m₁ =>
    obtain ⟨m₂, htrace, harena, -⟩ := traceFrom_done 3 settings (branchLine condition v) m₁
    have hm₂ : M.Accounts settings m₂ := by
      rw [hc] at hcondition
      exact hcondition.of_pinned fun h hh => by rwa [harena] at hh
    rw [Effect.bind_of_done hc, Effect.bind_of_done htrace]
    obtain htaken | ⟨e, htaken⟩ := taken_cases v.isTruthy thenBranch elseBranch
    · rw [htaken]
      exact hm₂
    · have hone : (executeAll (executeUpTo settings n) [e] m₂).machine
          = (executeUpTo settings n e m₂).machine := executeAll_singleton_machine _ e m₂
      have hleads : Leads settings M ⟨n, true, e, frames, m₂⟩ :=
        .branch hc htrace (by rw [htaken]; exact List.mem_singleton_self e)
      rw [htaken, hone]
      exact .of_leads hleads hm₂ (hinside _ hleads rfl)

/-- The rounds of a loop, after some of them. -/
theorem accounts_of_rounds {condition body : Node} {j k : Nat}
    (hM : Moment.Fits False ⟨n + 1, true, .loop condition body, frames, m⟩)
    (hinside : ∀ N, Leads settings ⟨n + 1, true, .loop condition body, frames, m⟩ N →
      N.executing = true → N.Accounts settings (N.outcome settings).machine)
    (hrounds : Rounds settings n condition body m k m₁) (hjk : k + j = n)
    (hm₁ : Moment.Accounts settings ⟨n + 1, true, .loop condition body, frames, m⟩ m₁) :
    Moment.Accounts settings ⟨n + 1, true, .loop condition body, frames, m⟩
      (loopUpTo settings n j condition body m₁).machine := by
  induction j generalizing k m₁ with
  | zero => exact hm₁
  | succ j ih =>
    have hk : k < n := by omega
    have hfits := (Leads.condition hrounds hk).fits hreclaim hM
    have hcondition := hm₁.evaluated hreclaim (hfits.machine False) rfl n condition
    rw [loopUpTo_succ]
    cases hc : evaluateUpTo settings n condition m₁ with
    | stopped why m₂ =>
      rw [hc] at hcondition
      rw [Effect.bind_of_stopped hc]
      exact hcondition
    | done v m₂ =>
      rw [hc] at hcondition
      rw [Effect.bind_of_done hc]
      cases hv : v.isTruthy with
      | false =>
        rw [if_neg Bool.false_ne_true, bind_pure_machine]
        refine hcondition.of_pinned fun h hh => ?_
        rwa [(Effect.WritesOnly.traceFrom 3 settings _ m₂).1] at hh
      | true =>
        rw [if_pos rfl]
        have hleads : Leads settings ⟨n + 1, true, .loop condition body, frames, m⟩
            ⟨n, true, body, frames, m₂⟩ := .round hrounds hk hc hv
        have hbody := Moment.Accounts.of_leads hleads hcondition (hinside _ hleads rfl)
        rw [Moment.outcome, if_pos rfl] at hbody
        cases hb : executeUpTo settings n body m₂ with
        | stopped why m₃ =>
          rw [hb] at hbody
          rw [Effect.bind_of_stopped hb]
          exact hbody
        | done w m₃ =>
          rw [hb] at hbody
          rw [Effect.bind_of_done hb]
          exact ih (.more hrounds hc hv hb) (by omega) hbody

end

/-- What is pinned when a statement has been executed was pinned before, or was pinned by a
declaration in the course of the statement. -/
theorem pinned_of_outcome (hM : M.Fits False) (hexecuting : M.executing = true) :
    M.Accounts settings (M.outcome settings).machine := by
  obtain ⟨bound, executing, node, frames, m⟩ := M
  obtain rfl : executing = true := hexecuting
  induction bound generalizing node frames m with
  | zero => exact fun h => .inl
  | succ n ih =>
    have hinside {N : Moment} (hleads : Leads settings ⟨n + 1, true, node, frames, m⟩ N)
        (hN : N.executing = true) : N.Accounts settings (N.outcome settings).machine := by
      have hNfits := hleads.fits hreclaim hM
      cases hleads with
      | expression | condition => cases hN
      | block | branch | round => exact ih _ _ _ hNfits
    have hsimple (hsimple : m.calls ≠ [] ∨ node.IsSimple) : Moment.Accounts settings
        ⟨n + 1, true, node, frames, m⟩ (Moment.outcome settings ⟨n + 1, true, node, frames, m⟩).machine :=
      fun h hh => .inl ((pinned_of_simple hreclaim hM rfl hsimple).mp hh)
    by_cases hcalls : m.calls = []
    · cases node with
      | function name params body =>
        have hD : Moment.Declares ⟨n + 1, true, .function name params body, frames, m⟩ :=
          ⟨Nat.succ_ne_zero n, rfl, ⟨name, params, body, rfl⟩, hcalls⟩
        intro h hh
        exact ((pinned_of_declared hM hD).mp hh).imp_right fun hh => ⟨_, .refl, hD, hh⟩
      | block statements => exact accounts_of_block hreclaim hM fun N => hinside
      | branch condition thenBranch elseBranch =>
        exact accounts_of_branch hreclaim hM fun N => hinside
      | loop condition body =>
        exact accounts_of_rounds hreclaim hM (fun N => hinside) .none (Nat.zero_add n) fun h => .inl
      | missing | many _ | literal _ | grouping _ | unary _ _ | binary _ _ _ | logical _ _ _
      | reference _ | assign _ _ | call _ _ _ | evaluate _ | print _ | declare _ _
      | giveBack _ _ => exact hsimple (.inr ⟨rfl, fun _ _ _ h => by cases h⟩)
    · exact hsimple (.inl hcalls)

/-! ### What is declared is pinned -/

theorem executeAll_grows {w : Layout} (hm : m.Fits w) (hnamed : w.named = False)
    (hstill : w.still = False) (n : Nat) (es : List Node) :
    m.GrowsTo (executeAll (executeUpTo settings n) es m).machine :=
  (executeAll_fits hreclaim n hm fun _ _ =>
    ⟨fun h => (hnamed ▸ h : False).elim, fun h => (hstill ▸ h : False).elim⟩).growsTo hm

theorem loopUpTo_grows {w : Layout} (hm : m.Fits w) (hnamed : w.named = False)
    (hstill : w.still = False) (n rounds : Nat) (condition body : Node) :
    m.GrowsTo (loopUpTo settings n rounds condition body m).machine := by
  have hadmits : w.AdmitsStatement (.loop condition body) :=
    ⟨fun h => (hnamed ▸ h : False).elim, fun h => (hstill ▸ h : False).elim⟩
  have hrelated := Simulation.executeStep ((layoutSimulation settings hreclaim).evaluateUpTo n)
    ((layoutSimulation settings hreclaim).executeUpTo n) rounds w _ hadmits w (.refl w) m m ⟨rfl, hm⟩
  exact Outcome.Related.growsTo hrelated hm

omit hreclaim in
/-- The rounds that a loop has gone through are over. -/
theorem Rounds.loopUpTo_eq {n k : Nat} {condition body : Node}
    (hrounds : Rounds settings n condition body m k m₁) (j : Nat) :
    loopUpTo settings n (k + j) condition body m = loopUpTo settings n j condition body m₁ := by
  induction hrounds generalizing j with
  | none => rw [Nat.zero_add]
  | @more k m₁ m₂ m₃ v w before holds truthy done ih =>
    rw [Nat.add_assoc, Nat.add_comm 1 j, ih (j + 1), loopUpTo_succ, Effect.bind_of_done holds,
      if_pos truthy, Effect.bind_of_done done]

/-- The moment is at a statement outside all calls. -/
def Moment.Outer (M : Moment) : Prop := M.executing = true ∧ M.frames.calls = []

omit hreclaim in
/-- Outside all calls the moments on the way inwards are at statements too. -/
theorem Leads.outer (hMN : Leads settings M N) (hN : N.Outer) : M.Outer := by
  obtain ⟨hexecuting, hcalls⟩ := hN
  cases hMN with
  | operand | expression | condition => cases hexecuting
  | body => cases hcalls
  | block | branch | round => exact ⟨rfl, hcalls⟩

/-- When a statement is done, the ones after it go on from the machine that it leaves. -/
theorem executeAll_cons_grows (hM : M.Fits False) (hexecuting : M.executing = true)
    (es : List Node) : (M.outcome settings).machine.GrowsTo
      (executeAll (executeUpTo settings M.bound) (M.node :: es) M.machine).machine := by
  rw [Moment.outcome, if_pos hexecuting]
  cases he : executeUpTo settings M.bound M.node M.machine with
  | stopped why k =>
    rw [executeAll_of_stopped he]
    exact .refl _
  | done v k =>
    rw [executeAll_of_done he]
    obtain ⟨w, hw, hk, -⟩ := (executeUpTo_fits hreclaim _ (hM.machine False)
      ⟨False.elim, False.elim⟩).fits_of_done he
    exact executeAll_grows hreclaim hk hw.named hw.still _ es

/-- The machine at the end of an inner statement grows to the one at the end of the outer one. -/
theorem Leads.grows (hMN : Leads settings M N) (hM : M.Fits False) (hN : N.Outer) :
    (N.outcome settings).machine.GrowsTo (M.outcome settings).machine := by
  have hNfits := hMN.fits hreclaim hM
  obtain ⟨hexecuting, hcalls⟩ := hN
  cases hMN with
  | operand | expression | condition => cases hexecuting
  | body => cases hcalls
  | @block n e before after frames m m₁ s entered executed =>
    obtain rfl := entered
    have hinner := congrArg Outcome.machine (executeAll_append executed (e :: after))
    have hleft := (block_left hreclaim hM hinner rfl).1
    exact (executeAll_cons_grows hreclaim hNfits rfl after).trans hleft
  | @branch n condition thenBranch elseBranch e frames m m₁ m₂ v evaluated traced taken =>
    have hmachine : (Moment.outcome settings
        ⟨n + 1, true, .branch condition thenBranch elseBranch, frames, m⟩).machine = _ :=
      executeStep_branch_machine settings _ _ n condition thenBranch elseBranch m
    rw [hmachine, Effect.bind_of_done evaluated, Effect.bind_of_done traced]
    obtain htaken | ⟨e', htaken⟩ := taken_cases v.isTruthy thenBranch elseBranch
    · rw [htaken] at taken
      exact absurd taken List.not_mem_nil
    · rw [htaken] at taken ⊢
      obtain rfl := List.mem_singleton.mp taken
      exact executeAll_cons_grows hreclaim hNfits rfl []
  | @round n k condition body frames m m₁ m₂ v rounds bounded evaluated truthy =>
    obtain ⟨j, rfl⟩ : ∃ j, n = k + (j + 1) := ⟨n - k - 1, by omega⟩
    have houtcome : Moment.outcome settings ⟨k + (j + 1) + 1, true, .loop condition body, frames, m⟩
        = (Bind.bind (m := Effect) (executeUpTo settings (k + (j + 1)) body) fun _ =>
          loopUpTo settings (k + (j + 1)) j condition body) m₂ := by
      refine (rounds.loopUpTo_eq (j + 1)).trans ?_
      rw [loopUpTo_succ, Effect.bind_of_done evaluated, if_pos truthy]
    have hN : Moment.outcome settings ⟨k + (j + 1), true, body, frames, m₂⟩
        = executeUpTo settings (k + (j + 1)) body m₂ := rfl
    rw [houtcome, hN]
    cases hb : executeUpTo settings (k + (j + 1)) body m₂ with
    | stopped why m₃ =>
      rw [Effect.bind_of_stopped hb]
      exact .refl _
    | done w m₃ =>
      rw [Effect.bind_of_done hb]
      obtain ⟨w, hw, hk, -⟩ := (executeUpTo_fits hreclaim _ (hNfits.machine False)
        ⟨False.elim, False.elim⟩).fits_of_done hb
      exact loopUpTo_grows hreclaim hk hw.named hw.still _ j condition body

/-- The machine at the end of a declaration in the course of a moment grows to the one at the end of
the moment. -/
theorem grows_of_declared (hM : M.Fits False) (hMN : Relation.ReflTransGen (Leads settings) M N)
    (hN : N.Declares) :
    M.Outer ∧ (N.outcome settings).machine.GrowsTo (M.outcome settings).machine := by
  induction hMN using Relation.ReflTransGen.head_induction_on with
  | refl => exact ⟨⟨hN.executing, hM.calls.symm.trans hN.outside⟩, .refl _⟩
  | head hMK _ ih =>
    obtain ⟨houter, hgrows⟩ := ih (hMK.fits hreclaim hM)
    exact ⟨hMK.outer houter, hgrows.trans (hMK.grows hreclaim hM houter)⟩

end

end LoxLang
