/-
The moments of a run.

A `Moment` is a point in a run at which a node is about to be evaluated or executed: the node, the
machine, and the scopes that have been entered and not left.  `Leads` says which moments there are
in the course of one, a step further inwards: an operand once the ones before it have values, a
statement of a block or of the body of a called function once the ones before it are done, a
branch that is taken, and the parts of each round of a loop.  `Reached` are all moments of some
runs, one after the other on one machine.

* `Leads.fits` — one step inwards keeps to the layout of the machine;
* `Reached.fits` — hence so does every moment that is reached.
-/
import LoxLang.Proofs.Machine.Layout
import Mathlib.Logic.Relation

namespace LoxLang

/-! ### Moments -/

/-- A node is about to be evaluated, or to be executed, with at most `bound` nested steps. -/
structure Moment where
  bound : Nat
  executing : Bool
  node : Node
  frames : Frames
  machine : Machine

/-- How the node ends. -/
def Moment.outcome (settings : Settings) (M : Moment) : Outcome Value :=
  if M.executing then executeUpTo settings M.bound M.node M.machine
  else evaluateUpTo settings M.bound M.node M.machine

/-- Whether the next operand is evaluated, given the values of those before it. -/
def Node.GoesOn : Node → List Value → Prop
  | .logical _ operator _, v :: _ => ¬(v.isTruthy == (operator.kind == .orWord)) = true
  | _, _ => True

/-- The machine after some rounds of a loop, in each of which the condition holds and the body is
done. -/
inductive Rounds (settings : Settings) (n : Nat) (condition body : Node) (m : Machine) :
    Nat → Machine → Prop where
  | none : Rounds settings n condition body m 0 m
  | more {k : Nat} {m₁ m₂ m₃ : Machine} {v w : Value}
      (before : Rounds settings n condition body m k m₁)
      (holds : evaluateUpTo settings n condition m₁ = .done v m₂) (truthy : v.isTruthy)
      (done : executeUpTo settings n body m₂ = .done w m₃) :
      Rounds settings n condition body m (k + 1) m₃

/-- The line that is traced where a branch is chosen. -/
def branchLine (condition : Node) (v : Value) : String :=
  "if on line " ++ condition.line.shown ++ " -> " ++ verdict v.isTruthy

/-- The line that is traced for a call. -/
def callLine (f : Function) (arguments : List Value) : String :=
  "call " ++ f.name.lexeme.shown ++ "(" ++ ", ".intercalate (arguments.map Value.display) ++ ")"

/-- In the course of the first moment comes the second one, a step further inwards. -/
inductive Leads (settings : Settings) : Moment → Moment → Prop where
  /-- An operand of an expression. -/
  | operand {n : Nat} {node e : Node} {frames : Frames} {m m₁ : Machine} {before after : List Node}
      {vs : List Value} (expression : node.isExpression)
      (operands : node.operands = before ++ e :: after)
      (evaluated : evaluateAll (evaluateUpTo settings n) before m = .done vs m₁)
      (goesOn : node.GoesOn vs) :
      Leads settings ⟨n + 1, false, node, frames, m⟩ ⟨n, false, e, frames, m₁⟩
  /-- A statement in the body of a function that is called. -/
  | body {n : Nat} {callee e : Node} {paren : Mark} {arguments before after : List Node}
      {frames : Frames} {m m₁ m₂ m₃ m₄ : Machine} {f : Function} {vs : List Value} {s : Handle}
      (evaluated : evaluateAll (evaluateUpTo settings n) (callee :: arguments) m
        = .done (.function f :: vs) m₁)
      (count : vs.length = f.arity)
      (traced : traceFrom 4 settings (callLine f vs) m₁ = .done () m₂)
      (room : m₂.calls.length < settings.maxCalls)
      (opened : openCall f vs m₂ = .done s m₃)
      (statements : f.body = before ++ e :: after)
      (executed : executeAll (executeUpTo settings n) before { m₃ with current := s }
        = .done () m₄) :
      Leads settings ⟨n + 1, false, .call callee paren arguments, frames, m⟩
        ⟨n, true, e, .call f s :: frames, m₄⟩
  /-- The expression in a statement.  A value is given back during a call only. -/
  | expression {n : Nat} {node e : Node} {frames : Frames} {m : Machine} (statement : node.isStatement)
      (operand : e ∈ node.operands) (noLoop : ∀ condition body, node ≠ .loop condition body)
      (called : ∀ keyword value, node = .giveBack keyword value → m.calls ≠ []) :
      Leads settings ⟨n + 1, true, node, frames, m⟩ ⟨n, false, e, frames, m⟩
  /-- A statement of a block. -/
  | block {n : Nat} {e : Node} {before after : List Node} {frames : Frames} {m m₁ : Machine}
      {s : Handle} (entered : (m.arena.push (some m.current)).2 = s)
      (executed : executeAll (executeUpTo settings n) before
        { m with arena := (m.arena.push (some m.current)).1, current := s } = .done () m₁) :
      Leads settings ⟨n + 1, true, .block (before ++ e :: after), frames, m⟩
        ⟨n, true, e, .block s :: frames, m₁⟩
  /-- The branch that is taken. -/
  | branch {n : Nat} {condition thenBranch elseBranch e : Node} {frames : Frames}
      {m m₁ m₂ : Machine} {v : Value}
      (evaluated : evaluateUpTo settings n condition m = .done v m₁)
      (traced : traceFrom 3 settings (branchLine condition v) m₁ = .done () m₂)
      (taken : e ∈ if v.isTruthy then [thenBranch] else elseBranch.ifPresent) :
      Leads settings ⟨n + 1, true, .branch condition thenBranch elseBranch, frames, m⟩
        ⟨n, true, e, frames, m₂⟩
  /-- The condition of a loop, in any round. -/
  | condition {n k : Nat} {condition body : Node} {frames : Frames} {m m₁ : Machine}
      (rounds : Rounds settings n condition body m k m₁) (bounded : k < n) :
      Leads settings ⟨n + 1, true, .loop condition body, frames, m⟩
        ⟨n, false, condition, frames, m₁⟩
  /-- The body of a loop, in any round. -/
  | round {n k : Nat} {condition body : Node} {frames : Frames} {m m₁ m₂ : Machine} {v : Value}
      (rounds : Rounds settings n condition body m k m₁) (bounded : k < n)
      (evaluated : evaluateUpTo settings n condition m₁ = .done v m₂) (truthy : v.isTruthy) :
      Leads settings ⟨n + 1, true, .loop condition body, frames, m⟩
        ⟨n, true, body, frames, m₂⟩

/-! ### The moments of some runs -/

namespace Request

/-- The statements that are run, unless there are none because of a fault of the request. -/
def statements? : Request → Option (List Node)
  | .source text =>
    if (Program.ofSource text).ok then some (Program.ofSource text).statements else none
  | .tree (.many statements) => some statements
  | .tree _ => none

/-- What is written before the first statement. -/
def opening (settings : Settings) (statements : List Node) : Request → Effect Unit
  | .source text => do
    reportAll (Program.ofSource text).heard
    Effect.trace settings.level ("run " ++ toString statements.length ++ " statement(s)")
  | .tree _ =>
    Effect.trace settings.level ("run " ++ toString statements.length ++ " statement(s)")

/-- The moments of a run that begins in a given machine. -/
inductive Reaches (settings : Settings) (request : Request) (m : Machine) : Moment → Prop where
  | statement {e : Node} {before after : List Node} {m₀ m₁ : Machine}
      (statements : request.statements? = some (before ++ e :: after))
      (opened : request.opening settings (before ++ e :: after) m = .done () m₀)
      (executed : executeAll (executeUpTo settings settings.patience) before m₀ = .done () m₁) :
      Reaches settings request m ⟨settings.patience, true, e, [], m₁⟩
  | inwards {M N : Moment} (reached : Reaches settings request m M) (leads : Leads settings M N) :
      Reaches settings request m N

end Request

/-- The machine that some runs leave, one after the other. -/
def leftBy (settings : Settings) (requests : List Request) (m : Machine) : Machine :=
  requests.foldl (fun m request => (request.run settings m).machine) m

/-- The moments of some runs, one after the other on one machine. -/
def Reached (settings : Settings) (requests : List Request) (M : Moment) : Prop :=
  ∃ before request after, requests = before ++ request :: after ∧
    request.Reaches settings (leftBy settings before .initial) M

/-! ### Every moment fits a layout -/

/-- The layout at a moment. -/
def Moment.layout (M : Moment) (named still : Prop) : Layout where
  frames := M.frames
  shape := M.machine.arena.shape
  calls := M.frames.calls
  declared := M.machine.nextId
  named := named
  still := still

/-- The machine has its scopes where the frames say, and where all parameters are to be names,
those of the node are. -/
structure Moment.Fits (named : Prop) (M : Moment) : Prop where
  machine (still : Prop) : M.machine.Fits (M.layout named still)
  node : named → M.node.NamesParameters

/-- A moment at which the machine fits a layout with the same frames. -/
theorem Moment.fits_of {M : Moment} {v : Layout} {named : Prop} (hm : M.machine.Fits v)
    (hframes : v.frames = M.frames) (hcalls : v.calls = M.frames.calls) (hnamed : v.named = named)
    (hnode : named → M.node.NamesParameters) : M.Fits named :=
  ⟨fun _ => hm.of_eq hframes.symm hm.shape hcalls.symm hm.declared hnamed.symm, hnode⟩

section

variable {settings : Settings} {named : Prop} {n k : Nat}

/-- So does the machine when the node has been evaluated or executed. -/
theorem Moment.Fits.outcome {M : Moment} (hreclaim : settings.reclaim = true) (hM : M.Fits named) :
    Outcome.Related LoxLang.layout LoxLang.layout.Leaving LoxLang.layout.values
      (M.layout named False) (M.outcome settings) (M.outcome settings) := by
  have hm := hM.machine False
  rw [Moment.outcome]
  split
  · exact executeUpTo_fits hreclaim _ hm ⟨hM.node, False.elim⟩
  · exact (evaluateUpTo_fits hreclaim _ hm hM.node).weaken (fun _ _ _ => .inl) fun _ _ _ => id

theorem Rounds.fits (hreclaim : settings.reclaim = true) {condition body : Node} {w : Layout}
    {m m₁ : Machine} (hm : m.Fits w) (hcondition : w.Admits condition)
    (hbody : w.AdmitsStatement body) (h : Rounds settings n condition body m k m₁) :
    ∃ v, w.Le v ∧ m₁.Fits v := by
  induction h with
  | none => exact ⟨w, .refl w, hm⟩
  | more _ holds _ done ih =>
    obtain ⟨u, hu, hm₁⟩ := ih
    obtain ⟨u', hu', hm₂, -⟩ :=
      (evaluateUpTo_fits hreclaim n hm₁ (hcondition.mono hu)).fits_of_done holds
    obtain ⟨v, hv, hm₃, -⟩ := (executeUpTo_fits hreclaim n hm₂
      ((hbody.mono hu).mono hu')).fits_of_done done
    exact ⟨v, (hu.trans hu').trans hv, hm₃⟩

variable {w : Layout} {m m₁ m₂ m₃ m₄ : Machine} {e : Node} {before after : List Node} {s : Handle}

/-- Statements of a block, up to one of them. -/
theorem block_fits (hreclaim : settings.reclaim = true) (hm : m.Fits w)
    (hnode : w.AdmitsStatement (.block (before ++ e :: after)))
    (entered : (m.arena.push (some m.current)).2 = s)
    (executed : executeAll (executeUpTo settings n) before
      { m with arena := (m.arena.push (some m.current)).1, current := s } = .done () m₁) :
    ∃ v, (w.enter (.block s) w.frames.current).Le v ∧ m₁.Fits v := by
  obtain ⟨_, rfl, -, henter⟩ := hm.enterBlock
  obtain rfl := entered
  have hbefore : ∀ f ∈ before, w.AdmitsStatement f := fun f hf => hnode.branch (by
    simp [Node.branches, hf])
  obtain ⟨v, hv, hm₁, -⟩ := (executeAll_fits hreclaim n henter hbefore).fits_of_done executed
  exact ⟨v, hv, hm₁⟩

/-- A call, up to one of the statements in the body of its function. -/
theorem body_fits (hreclaim : settings.reclaim = true) {callee : Node} {paren : Mark}
    {arguments : List Node} {f : Function} {vs : List Value} {line : String} (hm : m.Fits w)
    (hnode : w.Admits (.call callee paren arguments))
    (evaluated : evaluateAll (evaluateUpTo settings n) (callee :: arguments) m
      = .done (.function f :: vs) m₁)
    (count : vs.length = f.arity) (traced : traceFrom 4 settings line m₁ = .done () m₂)
    (opened : openCall f vs m₂ = .done s m₃) (statements : f.body = before ++ e :: after)
    (executed : executeAll (executeUpTo settings n) before { m₃ with current := s } = .done () m₄) :
    ∃ u v, w.Le u ∧ (Layout.enter { u with calls := f :: u.calls } (.call f s) f.closure).Le v ∧
      m₄.Fits v ∧ (w.named → e.NamesParameters) := by
  obtain ⟨u, hu, hm₁, _, hvalues⟩ := (evaluateAll_fits hreclaim n hm fun e he =>
    fun hnamed => (hnode hnamed).operand he).fits_of_done evaluated
  obtain ⟨hfunction, harguments⟩ : (Value.function f).Fits u ∧ ∀ v ∈ vs, v.Fits u := by
    obtain ⟨hall, -⟩ := (List.forall₂_and_left _ _).mp (hvalues.imp fun _ _ => And.symm)
    exact List.forall_mem_cons.mp hall
  obtain ⟨u', hu', hm₂, -⟩ := (traceFrom_fits (w := u) 4 settings line u (.refl u) m₁ m₁
    ⟨rfl, hm₁⟩).fits_of_done traced
  have hfunction' := hfunction.mono hu'
  obtain ⟨_, _, hopen, -, -, henter⟩ | ⟨_, _, _, hopen, -⟩ := openCall_fits hm₂ hfunction'
    (fun v hv => (harguments v hv).mono hu') count
  all_goals
    rw [opened] at hopen
    cases hopen
  have hbody {g : Node} (hg : g ∈ f.body) (hnamed : u'.named) : g.NamesParameters :=
    ((hfunction' f rfl).2 hnamed).body g hg
  obtain ⟨v, hv, hm₄, -⟩ := (executeAll_fits hreclaim n henter fun g hg =>
    ⟨hbody (by simp [statements, hg]), fun _ => .inl (by simp [Layout.enter])⟩).fits_of_done executed
  refine ⟨u', v, hu.trans hu', hv, hm₄, fun hnamed => hbody (by simp [statements]) ?_⟩
  rwa [hu'.named, hu.named]

/-- One step inwards keeps to the layout of the machine. -/
theorem Leads.fits {M N : Moment} (h : Leads settings M N) (hreclaim : settings.reclaim = true)
    (hM : M.Fits named) : N.Fits named := by
  obtain ⟨hm, hnode⟩ := hM
  have hm := hm False
  have hoperand {e : Node} (he : e ∈ M.node.operands) (hnamed : named) : e.NamesParameters :=
    (hnode hnamed).operand he
  have hbranch {e : Node} (he : e ∈ M.node.branches) (hnamed : named) : e.NamesParameters :=
    (hnode hnamed).branch he
  have hadmits {e : Node} (he : named → e.NamesParameters) :
      (M.layout named False).AdmitsStatement e := ⟨he, False.elim⟩
  cases h with
  | operand expression operands evaluated goesOn =>
    obtain ⟨v, hv, hm₁, -⟩ := (evaluateAll_fits hreclaim _ hm fun e he hnamed =>
      hoperand (by simp [operands, he]) hnamed).fits_of_done evaluated
    exact Moment.fits_of hm₁ hv.frames hv.calls hv.named (hoperand (by simp [operands]))
  | body evaluated count traced room opened statements executed =>
    obtain ⟨u, v, hu, hv, hm₄, he⟩ :=
      body_fits hreclaim hm hnode evaluated count traced opened statements executed
    refine Moment.fits_of hm₄ ?_ ?_ ?_ he
    · rw [hv.frames, Layout.enter, hu.frames]
      rfl
    · rw [hv.calls, Layout.enter, hu.calls]
      rfl
    · rw [hv.named, Layout.enter, hu.named]
      rfl
  | expression statement operand noLoop called =>
    exact Moment.fits_of hm rfl rfl rfl (hoperand operand)
  | block entered executed =>
    obtain ⟨v, hv, hm₁⟩ := block_fits hreclaim hm (hadmits hnode) entered executed
    exact Moment.fits_of hm₁ hv.frames hv.calls hv.named (hbranch (by simp [Node.branches]))
  | @branch n condition thenBranch elseBranch e frames m m₁ m₂ v evaluated traced taken =>
    obtain ⟨u, hu, hm₁, -⟩ := (evaluateUpTo_fits hreclaim n hm
      (hoperand (by simp [Node.operands]))).fits_of_done evaluated
    obtain ⟨u', hu', hm₂, -⟩ := (traceFrom_fits (w := u) 3 settings _ u (.refl u) m₁ m₁
      ⟨rfl, hm₁⟩).fits_of_done traced
    have hle := hu.trans hu'
    refine Moment.fits_of hm₂ hle.frames hle.calls hle.named (hbranch ?_)
    show e ∈ thenBranch :: elseBranch.ifPresent
    split at taken
    · exact List.mem_singleton.mp taken ▸ List.mem_cons_self
    · exact List.mem_cons_of_mem _ taken
  | condition rounds bounded =>
    obtain ⟨v, hv, hm₁⟩ := rounds.fits hreclaim hm (hoperand (by simp [Node.operands]))
      (hadmits (hbranch (by simp [Node.branches])))
    exact Moment.fits_of hm₁ hv.frames hv.calls hv.named (hoperand (by simp [Node.operands]))
  | @round n k condition body frames m m₁ m₂ v rounds bounded evaluated truthy =>
    have hcondition : (Moment.layout ⟨n + 1, true, .loop condition body, frames, m⟩ named
      False).Admits condition := hoperand (by simp [Node.operands])
    obtain ⟨u, hu, hm₁⟩ := rounds.fits hreclaim hm hcondition
      (hadmits (hbranch (by simp [Node.branches])))
    obtain ⟨u', hu', hm₂, -⟩ := (evaluateUpTo_fits hreclaim n hm₁
      (hcondition.mono hu)).fits_of_done evaluated
    have hle := hu.trans hu'
    exact Moment.fits_of hm₂ hle.frames hle.calls hle.named (hbranch (by simp [Node.branches]))

/-! ### Whole runs -/

/-- All parameters in what is asked for are names.  In a source text they always are. -/
def Request.NamesParameters : Request → Prop
  | .source _ => True
  | .tree node => node.NamesParameters

theorem Request.NamesParameters.statement {request : Request} (h : request.NamesParameters)
    {statements : List Node} (hstatements : request.statements? = some statements) {e : Node}
    (he : e ∈ statements) : e.NamesParameters := by
  cases request with
  | source text =>
    obtain ⟨hok, heq⟩ := Option.ite_none_right_eq_some.mp hstatements
    cases heq
    exact Program.ofSource_namesParameters hok e he
  | tree node =>
    cases node with
    | many es =>
      cases hstatements
      exact fun q hq => h q (Node.parameters_subset_of_mem he hq)
    | _ => cases hstatements

/-- The layout of a machine outside all runs. -/
def Machine.rest (m : Machine) (named : Prop) : Layout :=
  ⟨[], m.arena.shape, [], m.nextId, named, False⟩

theorem initial_fits (named : Prop) : Machine.initial.Fits (Machine.initial.rest named) where
  tidy := .of_vacant_nil rfl
  shape := rfl
  proper := .initial
  tight _ := .initial
  current := rfl
  calls := rfl
  declared := rfl
  outside _ := rfl
  functions _ hf := absurd hf List.not_mem_nil
  values := Arena.holds_initial
  bound _ _ hs := absurd hs List.not_mem_nil

theorem admits_of_namesParameters (hreclaim : settings.reclaim = true) {request : Request}
    (hrequest : named → request.NamesParameters) (m : Machine) :
    (layoutSimulation settings hreclaim).Admits (m.rest named) request := by
  cases request with
  | source text =>
    exact fun hok e he => ⟨fun _ => Program.ofSource_namesParameters hok e he, False.elim⟩
  | tree node =>
    cases node with
    | many es =>
      exact fun e he => ⟨fun hnamed q hq => hrequest hnamed q (Node.parameters_subset_of_mem he hq),
        False.elim⟩
    | _ => trivial

/-- A run that begins outside all others ends so. -/
theorem run_fits (hreclaim : settings.reclaim = true) {request : Request}
    (hrequest : named → request.NamesParameters) (hm : m.Fits (m.rest named)) :
    Outcome.Related layout layout.Leaving (layoutSimulation settings hreclaim).Completions
      (m.rest named) (request.run settings m) (request.run settings m) :=
  (layoutSimulation settings hreclaim).request_related rfl
    (admits_of_namesParameters hreclaim hrequest m) _ (.refl _) m m ⟨rfl, hm⟩

theorem leftBy_fits (hreclaim : settings.reclaim = true) {requests : List Request}
    (hrequests : named → ∀ r ∈ requests, r.NamesParameters) (hm : m.Fits (m.rest named)) :
    (leftBy settings requests m).Fits ((leftBy settings requests m).rest named) := by
  induction requests generalizing m with
  | nil => exact hm
  | cons request rest ih =>
    obtain ⟨v, hv, hn⟩ := (run_fits hreclaim (fun h => hrequests h request (by simp)) hm).fits
    refine ih (fun h r hr => hrequests h r (by simp [hr])) ?_
    exact hn.of_eq hv.frames.symm hn.shape hv.calls.symm hn.declared hv.named.symm

theorem opening_fits (hreclaim : settings.reclaim = true) (statements : List Node)
    (request : Request) : Effect.Related layout layout.Halting layout.Anything w
      (request.opening settings statements) (request.opening settings statements) := by
  have htrace (u : Layout) (line : String) : Effect.Related layout layout.Halting layout.Anything u
      (Effect.trace settings.level line) (Effect.trace settings.level line) :=
    traceFrom_fits 0 settings line
  cases request with
  | source text =>
    exact .seq ((layoutSimulation settings hreclaim).reportAll_related w _) fun u _ _ _ => htrace u _
  | tree node => exact htrace w _

/-- Every moment of a run keeps to the layout of the machine. -/
theorem Request.Reaches.fits (hreclaim : settings.reclaim = true) {request : Request}
    (hrequest : named → request.NamesParameters) (hm : m.Fits (m.rest named)) {M : Moment}
    (hM : request.Reaches settings m M) : M.Fits named := by
  induction hM with
  | @statement e before after m₀ m₁ statements opened executed =>
    obtain ⟨u, hu, hm₀, -⟩ := (opening_fits hreclaim _ request _ (.refl _) m m
      ⟨rfl, hm⟩).fits_of_done opened
    have hadmits : ∀ f ∈ before ++ e :: after, (m.rest named).AdmitsStatement f := fun f hf =>
      ⟨fun hnamed => (hrequest hnamed).statement statements hf, False.elim⟩
    obtain ⟨v, hv, hm₁, -⟩ := (executeAll_fits hreclaim _ hm₀ fun f hf =>
      (hadmits f (by simp [hf])).mono hu).fits_of_done executed
    have hle := hu.trans hv
    exact Moment.fits_of hm₁ hle.frames hle.calls hle.named (hadmits e (by simp)).1
  | inwards _ leads ih => exact leads.fits hreclaim ih

/-- Every moment that is reached keeps to the layout of the machine. -/
theorem Reached.fits (hreclaim : settings.reclaim = true) {requests : List Request}
    (hrequests : named → ∀ r ∈ requests, r.NamesParameters) {M : Moment}
    (hM : Reached settings requests M) : M.Fits named := by
  obtain ⟨before, request, after, rfl, hM⟩ := hM
  have hbefore : (leftBy settings before .initial).Fits
      ((leftBy settings before .initial).rest named) :=
    leftBy_fits hreclaim (fun h r hr => hrequests h r (by simp [hr])) (initial_fits named)
  exact hM.fits hreclaim (fun h => hrequests h request (by simp)) hbefore

end

end LoxLang
