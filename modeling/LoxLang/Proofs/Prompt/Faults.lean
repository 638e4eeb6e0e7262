/-
What a runtime error leaves.

A runtime error ends all that is under way.  On the way out every scope is left that was entered,
and nothing else is done: all other scopes, and among those that are left the pinned ones, keep the
bindings that they had when the error was raised (`Arena.Left`).

* `Leads.fails` — an error at a moment is one at the moment around it;
* `Request.Reaches.fails` — hence it is what the run ends with;
* `Request.unwinds_of_run` — a run that ends with an error has raised it at some moment, and keeps
  all bindings that there were then.
-/
import LoxLang.Proofs.CommandLine.ExitStatus
import LoxLang.Proofs.Machine.Origins

namespace LoxLang

/-! ### Scopes that are left -/

namespace Arena

variable {κ α : Type} {a b c : Arena κ α} {left : List Handle} {g h : Handle} {s : Scope κ α}

/-- A scope is released, unless it is not there or is pinned. -/
theorem release_cases (a : Arena κ α) (h : Handle) :
    ((a.release h).1 = a ∧ ∀ s, a.scope h = .ok s → s.pinned = true) ∨
      ∃ s, a.scope h = .ok s ∧ s.pinned = false ∧ (a.release h).1 = a.free h := by
  rw [release]
  cases hs : a.scope h with
  | error r => exact .inl ⟨rfl, fun s h => by cases h⟩
  | ok s =>
    cases hpinned : s.pinned with
    | true =>
      refine .inl ⟨by simp only [hpinned, if_true], fun t ht => ?_⟩
      cases ht
      exact hpinned
    | false => exact .inr ⟨s, rfl, hpinned, by simp only [hpinned, Bool.false_eq_true, if_false]⟩

/-- The second arena has the scopes of the first one as they are, without those among the given
ones that are not pinned. -/
def Left (left : List Handle) (a b : Arena κ α) : Prop :=
  ∀ g s, b.scope g = .ok s ↔ a.scope g = .ok s ∧ (g ∈ left → s.pinned = true)

namespace Left

theorem refl (a : Arena κ α) : Left [] a a :=
  fun _ _ => (and_iff_left fun h => absurd h List.not_mem_nil).symm

theorem trans {inner outer : List Handle} (hab : Left inner a b) (hbc : Left outer b c) :
    Left (inner ++ outer) a c := by
  intro g s
  rw [hbc g s, hab g s, and_assoc, ← or_imp, ← List.mem_append]

theorem release (a : Arena κ α) (h : Handle) : Left [h] a (a.release h).1 := by
  intro g s
  simp only [List.mem_singleton]
  obtain ⟨heq, hpinned⟩ | ⟨t, ht, hpinned, heq⟩ := release_cases a h
  · rw [heq]
    refine (and_iff_left_of_imp ?_).symm
    rintro hs rfl
    exact hpinned s hs
  · rw [heq]
    by_cases hg : g = h
    · subst hg
      -- The scope is not there any more, and was not pinned.
      refine iff_of_false (fun hs => ?_) ?_
      · have hnone := shape_of_scope hs
        rw [shape_free ht, Shape.free, if_pos rfl] at hnone
        cases hnone
      · rintro ⟨hs, hs'⟩
        rw [ht] at hs
        cases hs
        rw [hs' rfl] at hpinned
        cases hpinned
    · rw [scope_free hg]
      exact (and_iff_left fun heq => absurd heq hg).symm

/-- A scope that is not left, or is pinned, keeps its bindings. -/
theorem scope_eq (hab : Left left a b) (hs : a.scope g = .ok s)
    (hkept : g ∈ left → s.pinned = true) : b.scope g = .ok s :=
  (hab g s).mpr ⟨hs, hkept⟩

end Left

end Arena

/-! ### One step outwards -/

variable {settings : Settings} {M N : Moment} {n : Nat} {frames : Frames} {m m₁ m₂ k : Machine}
  {node e : Node} {before after : List Node} {why : Stop} {error : RuntimeError}

section Operands

variable {evaluate : Node → Effect Value}

/-- The first of some values, and the others. -/
theorem evaluateAll_cons_eq {es : List Node} {vs : List Value}
    (h : evaluateAll evaluate (e :: es) m = .done vs m₂) :
    ∃ v ws m₁, evaluate e m = .done v m₁ ∧ evaluateAll evaluate es m₁ = .done ws m₂ ∧
      vs = v :: ws := by
  rw [evaluateAll] at h
  cases he : evaluate e m with
  | stopped why m₁ =>
    rw [Effect.bind_of_stopped he] at h
    cases h
  | done v m₁ =>
    rw [Effect.bind_of_done he] at h
    cases hes : evaluateAll evaluate es m₁ with
    | stopped why m₂ =>
      rw [Effect.bind_of_stopped hes] at h
      cases h
    | done ws m₂ =>
      rw [Effect.bind_of_done hes] at h
      cases h
      exact ⟨v, ws, m₁, rfl, hes, rfl⟩

theorem evaluateAll_of_stopped {vs : List Value}
    (evaluated : evaluateAll evaluate before m = .done vs m₁)
    (hstop : evaluate e m₁ = .stopped why k) (after : List Node) :
    evaluateAll evaluate (before ++ e :: after) m = .stopped why k := by
  induction before generalizing m vs with
  | nil =>
    cases evaluated
    exact Effect.bind_of_stopped hstop
  | cons f before ih =>
    obtain ⟨v, ws, m₀, hv, hws, -⟩ := evaluateAll_cons_eq evaluated
    exact (Effect.bind_of_done hv).trans (Effect.bind_of_stopped (ih hws))

end Operands

/-- Where an operand stops, so does the expression. -/
theorem stops_of_operand {vs : List Value} (hexpression : node.isExpression)
    (operands : node.operands = before ++ e :: after)
    (evaluated : evaluateAll (evaluateUpTo settings n) before m = .done vs m₁)
    (hgoes : node.GoesOn vs) (hstop : evaluateUpTo settings n e m₁ = .stopped why k) :
    evaluateUpTo settings (n + 1) node m = .stopped why k := by
  cases before with
  | nil =>
    -- The first operand comes first in every expression.
    cases evaluated
    cases node with
    | grouping f =>
      cases operands
      exact hstop
    | assign _ _ | unary _ _ | logical _ _ _ | binary _ _ _ | call _ _ _ =>
      cases operands
      exact Effect.bind_of_stopped hstop
    | literal _ | reference _ => cases operands
    | _ => cases hexpression
  | cons f before =>
    obtain ⟨v, ws, m₀, hv, hws, rfl⟩ := evaluateAll_cons_eq evaluated
    cases node with
    | logical left op right =>
      cases before with
      | nil =>
        cases operands
        cases hws
        exact (Effect.bind_of_done hv).trans ((congrFun (if_neg hgoes) _).trans hstop)
      | cons g before => cases before <;> cases operands
    | binary left op right =>
      cases before with
      | nil =>
        cases operands
        cases hws
        exact (Effect.bind_of_done hv).trans (Effect.bind_of_stopped hstop)
      | cons g before => cases before <;> cases operands
    | call callee paren arguments =>
      cases operands
      exact (Effect.bind_of_done hv).trans
        (Effect.bind_of_stopped (evaluateAll_of_stopped hws hstop after))
    | grouping _ | assign _ _ | unary _ _ => cases before <;> cases operands
    | literal _ | reference _ => cases operands
    | _ => cases hexpression

/-- Where the initializer stops, if there is one. -/
theorem initializer_of_stopped {evaluate : Node → Effect Value} {f : Node} (he : e ∈ f.ifPresent)
    (hstop : evaluate e m = .stopped why k) :
    (if f.isMissing then pure .nil else evaluate f : Effect Value) m = .stopped why k := by
  rw [Node.ifPresent] at he
  split at he
  · cases he
  · rename_i hpresent
    obtain rfl := List.mem_singleton.mp he
    rw [if_neg hpresent]
    exact hstop

/-- Where the expression in a statement stops, so does the statement. -/
theorem stops_of_expression (hstatement : node.isStatement) (he : e ∈ node.operands)
    (hloop : ∀ condition body, node ≠ .loop condition body)
    (hcalled : ∀ keyword value, node = .giveBack keyword value → m.calls ≠ [])
    (hstop : evaluateUpTo settings n e m = .stopped why k) :
    executeUpTo settings (n + 1) node m = .stopped why k := by
  cases node with
  | evaluate f =>
    obtain rfl := List.mem_singleton.mp he
    exact hstop
  | print f =>
    obtain rfl := List.mem_singleton.mp he
    exact Effect.bind_of_stopped hstop
  | declare name f =>
    have hstep : executeUpTo settings (n + 1) (.declare name f) m = _ :=
      congrFun (Simulation.executeStep_declare settings _ _ n name f) m
    exact hstep.trans (Effect.bind_of_stopped (initializer_of_stopped he hstop))
  | branch condition thenBranch elseBranch =>
    obtain rfl := List.mem_singleton.mp he
    have hstep : executeUpTo settings (n + 1) (.branch e thenBranch elseBranch) m = _ :=
      congrFun (Simulation.executeStep_branch settings _ _ n e thenBranch elseBranch) m
    exact hstep.trans (Effect.bind_of_stopped hstop)
  | loop condition body => exact absurd rfl (hloop condition body)
  | giveBack keyword f =>
    have hstep : executeUpTo settings (n + 1) (.giveBack keyword f) m = _ :=
      Simulation.executeStep_giveBack settings _ _ n keyword f m
    rw [hstep, if_neg (hcalled keyword f rfl)]
    exact Effect.bind_of_stopped (initializer_of_stopped he hstop)
  | block _ | function _ _ _ => cases he
  | _ => cases hstatement

/-- Where the branch that is taken stops, so does the statement. -/
theorem stops_of_branch {condition thenBranch elseBranch : Node} {v : Value}
    (evaluated : evaluateUpTo settings n condition m = .done v m₁)
    (traced : traceFrom 3 settings (branchLine condition v) m₁ = .done () m₂)
    (taken : e ∈ if v.isTruthy then [thenBranch] else elseBranch.ifPresent)
    (hstop : executeUpTo settings n e m₂ = .stopped why k) :
    executeUpTo settings (n + 1) (.branch condition thenBranch elseBranch) m = .stopped why k := by
  have hstep : executeUpTo settings (n + 1) (.branch condition thenBranch elseBranch) m = _ :=
    congrFun (Simulation.executeStep_branch settings _ _ n condition thenBranch elseBranch) m
  refine hstep.trans ((Effect.bind_of_done evaluated).trans ?_)
  refine (Effect.bind_of_done traced).trans (Effect.bind_of_stopped ?_)
  split at taken
  · rename_i htruthy
    obtain rfl := List.mem_singleton.mp taken
    exact (congrFun (if_pos htruthy) m₂).trans hstop
  · rename_i hfalsy
    exact (congrFun (if_neg hfalsy) m₂).trans (initializer_of_stopped taken hstop)

section Loops

variable {condition body : Node} {i : Nat} (rounds : Rounds settings n condition body m i m₁)
  (bounded : i < n)
include rounds bounded

/-- In the course of a loop comes each of its rounds. -/
theorem loop_eq : executeUpTo settings (n + 1) (.loop condition body) m
    = loopUpTo settings n (n - i - 1 + 1) condition body m₁ := by
  have hround := rounds.loopUpTo_eq (n - i - 1 + 1)
  rwa [show i + (n - i - 1 + 1) = n by omega] at hround

/-- Where the condition of a loop stops, so does the loop. -/
theorem stops_of_condition (hstop : evaluateUpTo settings n condition m₁ = .stopped why k) :
    executeUpTo settings (n + 1) (.loop condition body) m = .stopped why k := by
  rw [loop_eq rounds bounded, loopUpTo_succ]
  exact Effect.bind_of_stopped hstop

/-- Where the body of a loop stops, so does the loop. -/
theorem stops_of_round {v : Value}
    (evaluated : evaluateUpTo settings n condition m₁ = .done v m₂) (truthy : v.isTruthy)
    (hstop : executeUpTo settings n body m₂ = .stopped why k) :
    executeUpTo settings (n + 1) (.loop condition body) m = .stopped why k := by
  rw [loop_eq rounds bounded, loopUpTo_succ, Effect.bind_of_done evaluated, if_pos truthy]
  exact Effect.bind_of_stopped hstop

end Loops

section Scopes

theorem Effect.ensuring_of_stopped {α : Type} {x : Effect α} {last : Effect Unit}
    (hx : x m = .stopped why m₁) (hlast : last m₁ = .done () m₂) :
    Effect.ensuring x last m = .stopped why m₂ := by
  simp only [Effect.ensuring, hx, hlast]

theorem catchReturned_of_failed {body : Effect Unit}
    (hbody : body m = .stopped (.failed error) m₁) :
    catchReturned body m = .stopped (.failed error) m₁ := by
  simp only [catchReturned, hbody]

/-- Where the body of a function fails, so does the call. -/
theorem call_of_failed {execute : Node → Effect Value} {f : Function} {vs : List Value}
    {paren : Mark} {s : Handle} {m₃ : Machine} (count : vs.length = f.arity)
    (traced : traceFrom 4 settings (callLine f vs) m = .done () m₁)
    (room : m₁.calls.length < settings.maxCalls) (opened : openCall f vs m₁ = .done s m₂)
    (hbody : executeIn settings execute f.body s m₂ = .stopped (.failed error) m₃) :
    call settings execute (.function f) vs paren m
      = .stopped (.failed error) { m₃ with calls := m₃.calls.tail } := by
  have hlength : Effect.gets (·.calls.length) m₁ = .done m₁.calls.length m₁ := rfl
  rw [Simulation.call_function _ _ _ _ _ count, ← callLine, Effect.bind_of_done traced,
    Effect.bind_of_done hlength, if_neg (Nat.not_le.mpr room), runBody_eq,
    Effect.bind_of_done opened]
  exact Effect.ensuring_of_stopped (catchReturned_of_failed hbody) rfl

variable (hreclaim : settings.reclaim = true)
include hreclaim

/-- The scope that was entered last can be left. -/
theorem Machine.Fits.leaveScope_done {w : Layout} {frame : Frame} (hk : k.Fits w)
    (hframes : w.frames = frame :: frames) (previous : Handle) :
    ∃ k', leaveScope settings previous frame.scope k = .done () k' ∧
      Arena.Left [frame.scope] k.arena k'.arena := by
  obtain ⟨-, n, -, hleave, -⟩ := hk.leave hreclaim hframes
  have hleft := Arena.Left.release k.arena frame.scope
  rw [leaveScope_apply, if_pos hreclaim] at hleave ⊢
  rcases heq : k.arena.release frame.scope with ⟨arena, r | _⟩
  · rw [Effect.releaseScope, Effect.onArena_of_error heq] at hleave
    cases hleave
  · rw [heq] at hleft
    exact ⟨_, Effect.onArena_of_ok heq, hleft⟩

/-- Where a statement in a scope of its own stops, the scope is left. -/
theorem executeIn_of_stopped {frame : Frame}
    (hN : Moment.Fits False ⟨n, true, e, frame :: frames, m₁⟩)
    (executed : executeAll (executeUpTo settings n) before { m with current := frame.scope }
      = .done () m₁)
    (hstop : executeUpTo settings n e m₁ = .stopped why k) (after : List Node) :
    ∃ k', executeIn settings (executeUpTo settings n) (before ++ e :: after) frame.scope m
        = .stopped why k' ∧ Arena.Left [frame.scope] k.arena k'.arena := by
  obtain ⟨w, hw, hk⟩ := (hN.outcome hreclaim).fits
  have hout : Moment.outcome settings ⟨n, true, e, frame :: frames, m₁⟩ = .stopped why k := hstop
  rw [hout] at hk
  obtain ⟨k', hleave, hleft⟩ := hk.leaveScope_done hreclaim hw.frames m.current
  have hall : executeAll (executeUpTo settings n) (before ++ e :: after)
      { m with current := frame.scope } = .stopped why k := by
    rw [executeAll_append executed]
    exact executeAll_of_stopped hstop after
  have hin : executeIn settings (executeUpTo settings n) (before ++ e :: after) frame.scope m = _ :=
    executeIn_apply settings _ (before ++ e :: after) frame.scope m
  exact ⟨k', hin.trans (Effect.ensuring_of_stopped hall hleave), hleft⟩

/-- Where a statement of a block fails, so does the block. -/
theorem fails_of_block {s : Handle} (entered : (m.arena.push (some m.current)).2 = s)
    (hN : Moment.Fits False ⟨n, true, e, .block s :: frames, m₁⟩)
    (executed : executeAll (executeUpTo settings n) before
      { m with arena := (m.arena.push (some m.current)).1, current := s } = .done () m₁)
    (hstop : executeUpTo settings n e m₁ = .stopped why k) (after : List Node) :
    ∃ k', executeUpTo settings (n + 1) (.block (before ++ e :: after)) m = .stopped why k' ∧
      Arena.Left [s] k.arena k'.arena := by
  subst entered
  obtain ⟨k', hin, hleft⟩ := executeIn_of_stopped
    (m := { m with arena := (m.arena.push (some m.current)).1 }) hreclaim hN executed hstop after
  have hstep : executeUpTo settings (n + 1) (.block (before ++ e :: after)) m = _ :=
    congrFun (Simulation.executeStep_block settings _ _ n (before ++ e :: after)) m
  have hblock : executeBlock settings (executeUpTo settings n) (before ++ e :: after) m = _ :=
    executeBlock_apply settings _ (before ++ e :: after) m
  exact ⟨k', hstep.trans (Effect.bind_of_stopped (hblock.trans hin)), hleft⟩

/-- Where a statement in the body of a function fails, so does the call. -/
theorem fails_of_body {callee : Node} {paren : Mark} {arguments : List Node} {f : Function}
    {vs : List Value} {s : Handle} {m₃ m₄ : Machine}
    (evaluated : evaluateAll (evaluateUpTo settings n) (callee :: arguments) m
      = .done (.function f :: vs) m₁)
    (count : vs.length = f.arity) (traced : traceFrom 4 settings (callLine f vs) m₁ = .done () m₂)
    (room : m₂.calls.length < settings.maxCalls) (opened : openCall f vs m₂ = .done s m₃)
    (statements : f.body = before ++ e :: after)
    (hN : Moment.Fits False ⟨n, true, e, .call f s :: frames, m₄⟩)
    (executed : executeAll (executeUpTo settings n) before { m₃ with current := s } = .done () m₄)
    (hstop : executeUpTo settings n e m₄ = .stopped (.failed error) k) :
    ∃ k', evaluateUpTo settings (n + 1) (.call callee paren arguments) m
        = .stopped (.failed error) k' ∧ Arena.Left [s] k.arena k'.arena := by
  obtain ⟨k', hin, hleft⟩ := executeIn_of_stopped hreclaim hN executed hstop after
  obtain ⟨v, ws, m₀, hv, hws, heq⟩ := evaluateAll_cons_eq evaluated
  cases heq
  rw [← statements] at hin
  exact ⟨_, (Effect.bind_of_done hv).trans ((Effect.bind_of_done hws).trans
    (call_of_failed count traced room opened hin)), hleft⟩

/-- An error at a moment is one at the moment around it, and a scope that has been entered between
them is left. -/
theorem Leads.fails (h : Leads settings M N) (hM : M.Fits False)
    (hfailed : N.outcome settings = .stopped (.failed error) k) :
    ∃ k' left, M.outcome settings = .stopped (.failed error) k' ∧
      N.frames.scopes = left ++ M.frames.scopes ∧ Arena.Left left k.arena k'.arena := by
  have hN := h.fits hreclaim hM
  have stays (hout : M.outcome settings = .stopped (.failed error) k)
      (hframes : N.frames = M.frames) : ∃ k' left,
      M.outcome settings = .stopped (.failed error) k' ∧
        N.frames.scopes = left ++ M.frames.scopes ∧ Arena.Left left k.arena k'.arena :=
    ⟨k, [], hout, by rw [hframes]; rfl, .refl k.arena⟩
  cases h with
  | operand expression operands evaluated goesOn =>
    exact stays (stops_of_operand expression operands evaluated goesOn hfailed) rfl
  | body evaluated count traced room opened statements executed =>
    obtain ⟨k', hout, hleft⟩ := fails_of_body hreclaim evaluated count traced room opened statements
      hN executed hfailed
    exact ⟨k', _, hout, rfl, hleft⟩
  | expression statement operand noLoop called =>
    exact stays (stops_of_expression statement operand noLoop called hfailed) rfl
  | block entered executed =>
    obtain ⟨k', hout, hleft⟩ := fails_of_block hreclaim entered hN executed hfailed _
    exact ⟨k', _, hout, rfl, hleft⟩
  | branch evaluated traced taken =>
    exact stays (stops_of_branch evaluated traced taken hfailed) rfl
  | condition rounds bounded => exact stays (stops_of_condition rounds bounded hfailed) rfl
  | round rounds bounded evaluated truthy =>
    exact stays (stops_of_round rounds bounded evaluated truthy hfailed) rfl

/-! ### Where an error is raised -/

/-- The moment fails, and none does that comes in the course of it. -/
structure Moment.Raises (settings : Settings) (M : Moment) (error : RuntimeError) (k : Machine) :
    Prop where
  fails : M.outcome settings = .stopped (.failed error) k
  first : ∀ N, Leads settings M N → ∀ error' k', N.outcome settings ≠ .stopped (.failed error') k'

omit hreclaim in
theorem Leads.bound_lt (h : Leads settings M N) : N.bound < M.bound := by
  cases h with
  | operand | body | expression | block | branch | condition | round => exact Nat.lt_succ_self _

/-- In the course of what fails, the error is raised. -/
theorem Moment.Fits.exists_raises (hM : M.Fits False)
    (hfailed : M.outcome settings = .stopped (.failed error) k) :
    ∃ N k', Relation.ReflTransGen (Leads settings) M N ∧ N.Raises settings error k' := by
  induction hbound : M.bound using Nat.strong_induction_on generalizing M k with
  | _ bound ih =>
    by_cases hinner : ∃ N error' k', Leads settings M N ∧
        N.outcome settings = .stopped (.failed error') k'
    · obtain ⟨N, error', k', hleads, hN⟩ := hinner
      -- What is raised further inwards is what the moment fails with.
      obtain ⟨k₁, -, hM', -⟩ := hleads.fails hreclaim hM hN
      rw [hM'] at hfailed
      cases hfailed
      obtain ⟨L, k₂, hNL, hL⟩ :=
        ih N.bound (hbound ▸ hleads.bound_lt) (hleads.fits hreclaim hM) hN rfl
      exact ⟨L, k₂, .head hleads hNL, hL⟩
    · refine ⟨M, k, .refl, hfailed, fun N hleads error' k' hN => ?_⟩
      exact hinner ⟨N, error', k', hleads, hN⟩

end Scopes

/-! ### Whole runs -/

section Runs

variable {execute : Node → Effect Value} {es : List Node} {last v : Value}

theorem executeFrom_of_failed (last : Value)
    (h : executeAll execute es m = .stopped (.failed error) k) :
    ∃ v, executeFrom execute es last m = .done (v, some error) k := by
  have hcaught := executeFrom_caught execute es last m
  rw [h] at hcaught
  generalize executeFrom execute es last m = x at hcaught ⊢
  cases hcaught with
  | done h => cases h
  | failed h =>
    cases h
    exact ⟨_, rfl⟩
  | stopped h hwhy =>
    cases h
    exact absurd rfl (hwhy error)

theorem executeAll_of_error (h : executeFrom execute es last m = .done (v, some error) k) :
    executeAll execute es m = .stopped (.failed error) k := by
  have hcaught := executeFrom_caught execute es last m
  rw [h] at hcaught
  cases hcaught with
  | failed h => exact h

/-- What has been executed when a list of statements stops. -/
theorem exists_of_executeAll_stopped (h : executeAll execute es m = .stopped why k) :
    ∃ before e after m₁, es = before ++ e :: after ∧ executeAll execute before m = .done () m₁ ∧
      execute e m₁ = .stopped why k := by
  induction es generalizing m with
  | nil => cases h
  | cons e es ih =>
    cases he : execute e m with
    | stopped why' m₁ =>
      rw [executeAll_of_stopped he] at h
      cases h
      exact ⟨[], e, es, m, rfl, rfl, he⟩
    | done v m₁ =>
      rw [executeAll_of_done he] at h
      obtain ⟨before, f, after, m₂, rfl, hbefore, hf⟩ := ih h
      exact ⟨e :: before, f, after, m₂, rfl, (executeAll_of_done he before).trans hbefore, hf⟩

/-- The end of a run reports the error, if there is one, and leaves the scopes as they are. -/
theorem finishRun_done (settings : Settings) (v : Value) (error : Option RuntimeError)
    (m : Machine) : ∃ n, Simulation.finishRun settings (v, error) m = .done ⟨[], error, v⟩ n ∧
      n.arena = m.arena ∧
      n.reported = m.reported ++ (error.toList.map RuntimeError.report).toArray := by
  have harena := (finishRun_writes settings (v, error) m).1
  have htrace (line : String) (m : Machine) :
      (Effect.trace settings.level line m).machine.reported = m.reported :=
    (Effect.Along.trace (R := Machine.Quiet) settings.level line m).1
  cases error with
  | none => exact ⟨_, rfl, harena, (htrace _ m).trans (Array.append_empty).symm⟩
  | some e =>
    refine ⟨_, rfl, harena, (htrace _ _).trans ?_⟩
    exact congrArg (·.push e.report) (htrace ("runtime error: " ++ e.report) m)

variable {request : Request} {r : Completion} {statements : List Node} {m₀ m' : Machine}

/-- How the statements of a run have ended, when the run has ended with a result. -/
theorem Request.executeFrom_of_run (h : request.statements? = some statements)
    (opened : request.opening settings statements m = .done () m₀)
    (hrun : request.run settings m = .done r m') :
    ∃ k, executeFrom (executeUpTo settings settings.patience) statements .nil m₀
        = .done (r.value, r.runtimeError) k ∧ r.syntaxErrors = [] ∧ m'.arena = k.arena ∧
      m'.reported = m₀.reported ++ (r.runtimeError.toList.map RuntimeError.report).toArray := by
  rw [run_of_statements h, Effect.bind_of_done opened] at hrun
  cases hx : executeFrom (executeUpTo settings settings.patience) statements .nil m₀ with
  | stopped why k =>
    rw [Effect.bind_of_stopped hx] at hrun
    cases hrun
  | done x k =>
    obtain ⟨v, error⟩ := x
    obtain ⟨n, hn, harena, hreported⟩ := finishRun_done settings v error k
    rw [Effect.bind_of_done hx, hn] at hrun
    cases hrun
    -- The statements themselves report nothing.
    have hquiet := (executeAll_quiet settings settings.patience statements m₀).1
    have hmachine : (executeFrom (executeUpTo settings settings.patience) statements .nil
        m₀).machine = _ := executeFrom_machine _ statements .nil m₀
    rw [← hmachine, hx] at hquiet
    exact ⟨k, rfl, rfl, harena, hreported.trans (congrArg (· ++ _) hquiet)⟩

/-- Without statements to execute there is no runtime error. -/
theorem Request.runtimeError_of_none (h : request.statements? = none)
    (hrun : request.run settings m = .done r m') : r.runtimeError = none := by
  cases request with
  | source text =>
    have hok : ¬(Program.ofSource text).ok = true := fun hok => by
      rw [statements?, if_pos hok] at h
      cases h
    have hnot : Request.run settings (.source text) = _ := runProgram_of_not_ok hok
    obtain ⟨n, hn⟩ := reportAll_done (Program.ofSource text).heard m
    rw [hnot, Effect.bind_of_done hn] at hrun
    cases hrun
    rfl
  | tree node =>
    cases node with
    | many es => cases h
    | _ => cases hrun

variable (hreclaim : settings.reclaim = true) (hm : m.Fits (m.rest False))
include hreclaim hm

/-- An error at a moment of a run is what the run ends with, and the scopes are left that had been
entered. -/
theorem Request.Reaches.fails (hM : request.Reaches settings m M)
    (hfailed : M.outcome settings = .stopped (.failed error) k) :
    ∃ r m', request.run settings m = .done r m' ∧ r.runtimeError = some error ∧
      Arena.Left M.frames.scopes k.arena m'.arena := by
  induction hM generalizing k with
  | @statement e before after m₀ m₁ statements opened executed =>
    have hall : executeAll (executeUpTo settings settings.patience) (before ++ e :: after) m₀
        = .stopped (.failed error) k := by
      rw [executeAll_append executed]
      exact executeAll_of_stopped hfailed after
    obtain ⟨v, hx⟩ := executeFrom_of_failed .nil hall
    obtain ⟨m', hend, harena, -⟩ := finishRun_done settings v (some error) k
    refine ⟨⟨[], some error, v⟩, m', ?_, rfl, ?_⟩
    · rw [Request.run_of_statements statements, Effect.bind_of_done opened]
      exact (Effect.bind_of_done hx).trans hend
    · rw [harena]
      exact .refl k.arena
  | inwards hM leads ih =>
    obtain ⟨k', left, hout, hscopes, hleft⟩ :=
      leads.fails hreclaim (hM.fits hreclaim False.elim hm) hfailed
    obtain ⟨r, m', hrun, herror, hleft'⟩ := ih hout
    refine ⟨r, m', hrun, herror, ?_⟩
    rw [hscopes]
    exact hleft.trans hleft'

/-- A run that ends with an error has a moment at which it was raised. -/
theorem Request.exists_raises (hrun : request.run settings m = .done r m')
    (herror : r.runtimeError = some error) :
    ∃ M k, request.Reaches settings m M ∧ M.Raises settings error k := by
  cases hstatements : request.statements? with
  | none =>
    rw [Request.runtimeError_of_none hstatements hrun] at herror
    cases herror
  | some statements =>
    obtain ⟨m₀, opened, -⟩ := Request.opening_done settings request statements m
    obtain ⟨k, hx, -⟩ := Request.executeFrom_of_run hstatements opened hrun
    rw [herror] at hx
    obtain ⟨before, e, after, m₁, rfl, hbefore, he⟩ :=
      exists_of_executeAll_stopped (executeAll_of_error hx)
    have hM : request.Reaches settings m ⟨settings.patience, true, e, [], m₁⟩ :=
      .statement hstatements opened hbefore
    have hfailed : Moment.outcome settings ⟨settings.patience, true, e, [], m₁⟩
        = .stopped (.failed error) k := he
    obtain ⟨N, k', hMN, hN⟩ :=
      (hM.fits hreclaim False.elim hm).exists_raises hreclaim hfailed
    exact ⟨N, k', hM.of_leads hMN, hN⟩

omit hreclaim hm in
/-- A run that begins in one machine and ends in the other one has raised an error at some moment.
At every moment that the error went through, the scopes that were not left after that have the
bindings that they have in the end, and the global one is among them. -/
structure Request.Unwinds (settings : Settings) (request : Request) (m : Machine)
    (error : RuntimeError) (m' : Machine) : Prop where
  raised : ∃ M k, request.Reaches settings m M ∧ M.Raises settings error k
  kept : ∀ M error' k, request.Reaches settings m M →
    M.outcome settings = .stopped (.failed error') k → error' = error ∧
      Arena.Left M.frames.scopes k.arena m'.arena ∧
      ∃ s, k.arena.scope Arena.globals = .ok s ∧ m'.arena.scope Arena.globals = .ok s

theorem Request.unwinds_of_run (hrun : request.run settings m = .done r m')
    (herror : r.runtimeError = some error) : request.Unwinds settings m error m' := by
  refine ⟨Request.exists_raises hreclaim hm hrun herror, fun M error' k hM hfailed => ?_⟩
  obtain ⟨r', n, hrun', herror', hleft⟩ := hM.fails hreclaim hm hfailed
  rw [hrun] at hrun'
  cases hrun'
  rw [herror] at herror'
  cases herror'
  refine ⟨rfl, hleft, ?_⟩
  -- The global scope is pinned, so it is never left.
  obtain ⟨w, -, hk⟩ := ((hM.fits hreclaim False.elim hm).outcome hreclaim).fits
  rw [hfailed] at hk
  have hglobals : k.arena.shape Arena.globals = some (none, true) :=
    (congrFun hk.shape _).trans hk.proper.globals
  obtain ⟨s, hs, -, hpinned⟩ := Arena.shape_eq_some.mp hglobals
  exact ⟨s, hs, hleft.scope_eq hs fun _ => hpinned⟩

end Runs

end LoxLang
