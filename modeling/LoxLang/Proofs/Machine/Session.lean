/-
Programs that are run one after the other.

A `Request` is a source text or a tree that a machine is given to run, and `session` gives the
outcomes of some requests, each of which begins in the machine that the one before has left.
A simulation carries over from single statements to whole runs and sessions:

* `Simulation.run` — one program;
* `Simulation.session` — any number of them.

A runtime error never ends a run without a result (`session_catches`).
-/
import LoxLang.Proofs.Machine.Simulation

namespace LoxLang

/-- What a machine is given to run. -/
inductive Request where
  | source (text : String)
  | tree (node : Node)

/-- Runs what is asked for. -/
def Request.run (settings : Settings) : Request → Effect Completion
  | .source text => runSource settings text
  | .tree node => runTree settings node

/-- The outcomes of some requests, one after the other on one machine.  However a run ends,
the next one begins in the machine that it has left. -/
def session (settings : Settings) : List Request → Machine → List (Outcome Completion)
  | [], _ => []
  | request :: rest, m =>
    let outcome := request.run settings m
    outcome :: session settings rest outcome.machine

namespace Simulation

variable {settings settings' : Settings} {S : Simulation settings settings'}
  {evaluate evaluate' execute execute' : Node → Effect Value}

/-! ### Whole programs -/

/-- Two results that are alike up to the correspondence of values. -/
def Completions (S : Simulation settings settings') (w : S.World) (r r' : Completion) : Prop :=
  r.syntaxErrors = r'.syntaxErrors ∧ r.runtimeError = r'.runtimeError ∧
    (∀ e ∈ r.runtimeError, S.halts (.failed e)) ∧ S.values w r.value r'.value

theorem executeFrom_related (hexecute : S.Statements execute execute') {w : S.World}
    {nodes : List Node} (hnodes : ∀ e ∈ nodes, S.statement w e) {a b : Value}
    (hab : S.values w a b) :
    Effect.Related S.toCorrespondence S.Leaving
      (fun u x y => S.values u x.1 y.1 ∧ x.2 = y.2 ∧ ∀ e ∈ x.2, S.halts (.failed e)) w
      (executeFrom execute nodes a) (executeFrom execute' nodes b) := by
  induction nodes generalizing w a b with
  | nil => exact .pure fun u hu => ⟨S.values_mono hu hab, rfl, by simp⟩
  | cons node rest ih =>
    intro u hu m m' hm
    rw [executeFrom, executeFrom]
    beta_reduce
    have h := hexecute w node (hnodes node (by simp)) u hu m m' hm
    generalize execute node m = o, execute' node m' = o' at h ⊢
    cases h with
    | @done v c d n n' grown machines ends =>
      have hwv := S.le_trans hu grown
      have hrest : ∀ e ∈ rest, S.statement v e := by
        intro e he
        exact S.statement_mono hwv (hnodes e (by simp [he]))
      exact (ih hrest ends v (S.le_refl v) n n' machines).mono grown
    | @stopped v why why' n n' grown machines ends =>
      rcases ends with ⟨rfl, hhalt, hreturned⟩ | ⟨c, d, rfl, rfl, hv, hcd⟩
      · cases why with
        -- A runtime error ends the list, not the effect.
        | failed e =>
          refine .done grown machines
            ⟨S.values_mono (S.le_trans hu grown) hab, rfl, fun e' he' => ?_⟩
          obtain rfl : e = e' := by simpa using he'
          exact hhalt
        | returned v => exact absurd rfl (hreturned v)
        | broken b => exact .stopped grown machines (.inl ⟨rfl, hhalt, hreturned⟩)
        | exhausted => exact .stopped grown machines (.inl ⟨rfl, hhalt, hreturned⟩)
      -- A value that is given back goes on to the call around the list.
      · exact .stopped grown machines (.inr ⟨c, d, rfl, rfl, hv, hcd⟩)

/-- The end of a run: the lines for a runtime error, and for how the run ended. -/
def finishRun (settings : Settings) (x : Value × Option RuntimeError) : Effect Completion := do
  if let some e := x.2 then
    Effect.trace settings.level ("runtime error: " ++ e.report)
    Effect.report e.report
  Effect.trace settings.level ("run finished: " ++ (Completion.mk [] x.2 x.1).status.name)
  return ⟨[], x.2, x.1⟩

/-- Runs statements that are executed in a given way. -/
def runWith (settings : Settings) (execute : Node → Effect Value) (statements : List Node) :
    Effect Completion := do
  Effect.trace settings.level ("run " ++ toString statements.length ++ " statement(s)")
  let x ← executeFrom execute statements .nil
  finishRun settings x

theorem run_eq_runWith (settings : Settings) (statements : List Node) :
    LoxLang.run settings statements
      = runWith settings (LoxLang.executeUpTo settings settings.patience) statements := rfl

theorem trace_related (S : Simulation settings settings') (w : S.World) (line : String) :
    Effect.Related S.toCorrespondence S.Halting S.Anything w
      (Effect.trace settings.level line) (Effect.trace settings'.level line) :=
  S.trace 0 line

theorem finishRun_related (S : Simulation settings settings') {w : S.World}
    {x y : Value × Option RuntimeError} (hvalues : S.values w x.1 y.1) (herror : x.2 = y.2)
    (hhalts : ∀ e ∈ x.2, S.halts (.failed e)) :
    Effect.Related S.toCorrespondence S.Halting S.Completions w (finishRun settings x)
      (finishRun settings' y) := by
  obtain ⟨a, error⟩ := x
  obtain ⟨b, error'⟩ := y
  obtain rfl : error = error' := herror
  have last {u : S.World} (hu : S.le w u) :
      Effect.Related S.toCorrespondence S.Halting S.Completions u
        (Effect.trace settings.level
          ("run finished: " ++ (Completion.mk [] error a).status.name) >>= fun _ =>
          pure ⟨[], error, a⟩)
        (Effect.trace settings'.level
          ("run finished: " ++ (Completion.mk [] error b).status.name) >>= fun _ =>
          pure ⟨[], error, b⟩) := by
    have hstatus : (Completion.mk [] error a).status = (Completion.mk [] error b).status := rfl
    rw [hstatus]
    refine .bind (S.trace_related u _) fun v hv _ _ _ => .pure fun z hz => ?_
    exact ⟨rfl, rfl, hhalts, S.values_mono (S.le_trans hu (S.le_trans hv hz)) hvalues⟩
  cases error with
  | none => exact last (S.le_refl w)
  | some e =>
    refine .bind (S.trace_related w _) fun u hu _ _ _ => ?_
    refine .bind (S.report _) fun v hv _ _ _ => ?_
    exact last (S.le_trans hu hv)

theorem runWith_related (hexecute : S.Statements execute execute') {w : S.World}
    {statements : List Node} (hstatements : ∀ e ∈ statements, S.statement w e) :
    Effect.Related S.toCorrespondence S.Leaving S.Completions w
      (runWith settings execute statements) (runWith settings' execute' statements) := by
  refine .bind (S.trace_related w _).leaving fun u hu _ _ _ => ?_
  have hu' : ∀ e ∈ statements, S.statement u e := by
    intro e he
    exact S.statement_mono hu (hstatements e he)
  refine .bind (executeFrom_related hexecute hu' (S.scalar rfl)) fun v hv x y hxy => ?_
  exact (S.finishRun_related hxy.1 hxy.2.1 hxy.2.2).leaving

theorem run (S : Simulation settings settings') (hpatience : settings.patience = settings'.patience)
    {w : S.World} {statements : List Node} (hstatements : ∀ e ∈ statements, S.statement w e) :
    Effect.Related S.toCorrespondence S.Leaving S.Completions w
      (LoxLang.run settings statements) (LoxLang.run settings' statements) := by
  rw [run_eq_runWith, run_eq_runWith, ← hpatience]
  exact runWith_related (S.executeUpTo _) hstatements

/-- What has to be known of a request for its run to correspond. -/
def Admits (S : Simulation settings settings') (w : S.World) : Request → Prop
  | .source text =>
    (Program.ofSource text).ok → ∀ e ∈ (Program.ofSource text).statements, S.statement w e
  | .tree (.many statements) => ∀ e ∈ statements, S.statement w e
  | .tree _ => S.halts (.broken .program)

theorem reportAll_related (S : Simulation settings settings') (w : S.World)
    (errors : List SyntaxError) :
    Effect.Related S.toCorrespondence S.Halting S.Anything w (reportAll errors)
      (reportAll errors) := by
  induction errors generalizing w with
  | nil => exact .pure fun _ _ => trivial
  | cons e rest ih => exact .seq (S.report _) fun u _ _ _ => ih u

theorem request_related (S : Simulation settings settings')
    (hpatience : settings.patience = settings'.patience) {w : S.World} {request : Request}
    (hrequest : S.Admits w request) :
    Effect.Related S.toCorrespondence S.Leaving S.Completions w (request.run settings)
      (request.run settings') := by
  have broken (h : S.halts (.broken .program)) :
      Effect.Related S.toCorrespondence S.Leaving S.Completions w
        (Effect.stop (.broken .program)) (Effect.stop (.broken .program)) :=
    (Effect.Related.halt h (by simp)).leaving
  cases request with
  | source text =>
    refine .seq (S.reportAll_related w _).leaving fun u hu _ _ => ?_
    split
    · rename_i hok
      refine S.run hpatience fun e he => ?_
      exact S.statement_mono hu (hrequest hok e he)
    · exact .pure fun _ _ => ⟨rfl, rfl, by simp, S.scalar rfl⟩
  | tree node =>
    cases node with
    | many statements => exact S.run hpatience hrequest
    | missing | literal _ | grouping _ | unary _ _ | binary _ _ _ | logical _ _ _ | reference _
    | assign _ _ | call _ _ _ | evaluate _ | print _ | declare _ _ | block _ | branch _ _ _
    | loop _ _ | function _ _ _ | giveBack _ _ => exact broken hrequest

/-- Two ends of runs correspond in a world that has since grown to `w`. -/
inductive Met (S : Simulation settings settings') (w : S.World) :
    Outcome Completion → Outcome Completion → Prop where
  | done {u : S.World} {r r' : Completion} {m m' : Machine} (grown : S.le u w)
      (machines : S.machines u m m') (ends : S.Completions w r r') :
      Met S w (.done r m) (.done r' m')
  | stopped {u : S.World} {why why' : Stop} {m m' : Machine} (grown : S.le u w)
      (machines : S.machines u m m') (ends : S.Leaving w why why') :
      Met S w (.stopped why m) (.stopped why' m')

theorem Completions.mono {v w : S.World} {r r' : Completion} (hvw : S.le v w)
    (h : S.Completions v r r') : S.Completions w r r' :=
  ⟨h.1, h.2.1, h.2.2.1, S.values_mono hvw h.2.2.2⟩

/-- A simulation of all statements admits every request. -/
theorem admits_of_statement (hstatement : ∀ w e, S.statement w e)
    (hbroken : S.halts (.broken .program)) (w : S.World) (request : Request) :
    S.Admits w request := by
  cases request with
  | source text => exact fun _ e _ => hstatement w e
  | tree node =>
    cases node with
    | many statements => exact fun e _ => hstatement w e
    | missing | literal _ | grouping _ | unary _ _ | binary _ _ _ | logical _ _ _ | reference _
    | assign _ _ | call _ _ _ | evaluate _ | print _ | declare _ _ | block _ | branch _ _ _
    | loop _ _ | function _ _ _ | giveBack _ _ => exact hbroken

/-- Sessions correspond run by run, all in one world. -/
theorem session (S : Simulation settings settings')
    (hpatience : settings.patience = settings'.patience) {w : S.World} {requests : List Request}
    {m m' : Machine} (hm : S.machines w m m')
    (hrequests : ∀ u, S.le w u → ∀ r ∈ requests, S.Admits u r) :
    ∃ v, S.le w v ∧ (∃ n n', S.machines v n n') ∧
      List.Forall₂ (S.Met v) (LoxLang.session settings requests m)
        (LoxLang.session settings' requests m') := by
  induction requests generalizing w m m' with
  | nil => exact ⟨w, S.le_refl w, ⟨m, m', hm⟩, .nil⟩
  | cons request rest ih =>
    have h := S.request_related hpatience (hrequests w (S.le_refl w) request (by simp)) w
      (S.le_refl w) m m' hm
    have hrest {u : S.World} (hu : S.le w u) : ∀ v, S.le u v → ∀ r ∈ rest, S.Admits v r := by
      intro v hv r hr
      exact hrequests v (S.le_trans hu hv) r (by simp [hr])
    rw [LoxLang.session, LoxLang.session]
    generalize request.run settings m = o, request.run settings' m' = o' at h ⊢
    cases h with
    | @done u r r' n n' grown machines ends =>
      obtain ⟨v, hv, hn, hs⟩ := ih machines (hrest grown)
      -- What the first run has ended with still corresponds in the world after the last one.
      exact ⟨v, S.le_trans grown hv, hn, .cons (.done hv machines (ends.mono hv)) hs⟩
    | @stopped u why why' n n' grown machines ends =>
      obtain ⟨v, hv, hn, hs⟩ := ih machines (hrest grown)
      exact ⟨v, S.le_trans grown hv, hn, .cons (.stopped hv machines (ends.mono hv)) hs⟩

end Simulation

/-! ### Runtime errors are caught -/

/-- The effect does not stop with a runtime error. -/
def Effect.Catches {α : Type} (x : Effect α) : Prop := ∀ m e n, x m ≠ .stopped (.failed e) n

namespace Effect.Catches

variable {α β : Type}

theorem pure (a : α) : Catches (Pure.pure a : Effect α) := by
  intro m e n h
  cases h

theorem modify (f : Machine → Machine) : Catches (Effect.modify f) := by
  intro m e n h
  cases h

theorem bind {x : Effect α} {f : α → Effect β} (hx : Catches x) (hf : ∀ a, Catches (f a)) :
    Catches (x >>= f) := by
  intro m e n
  cases hm : x m with
  | done a k =>
    rw [bind_of_done hm]
    exact hf a k e n
  | stopped why k =>
    rw [bind_of_stopped hm]
    intro h
    cases h
    exact hx m e n hm

end Effect.Catches

theorem executeFrom_catches (execute : Node → Effect Value) (nodes : List Node) (last : Value) :
    (executeFrom execute nodes last).Catches := by
  induction nodes generalizing last with
  | nil => exact .pure _
  | cons node rest ih =>
    intro m e n
    rw [executeFrom]
    beta_reduce
    generalize execute node m = outcome
    rcases outcome with ⟨v, k⟩ | ⟨why, k⟩
    · exact ih v k e n
    -- All stops are passed on, except for the runtime error that becomes part of the result.
    · cases why <;> simp

theorem finishRun_catches (settings : Settings) (x : Value × Option RuntimeError) :
    (Simulation.finishRun settings x).Catches := by
  obtain ⟨v, error⟩ := x
  cases error with
  | none => exact .bind (.modify _) fun _ => .pure _
  | some e =>
    exact .bind (.modify _) fun _ => .bind (.modify _) fun _ => .bind (.modify _) fun _ => .pure _

theorem run_catches (settings : Settings) (statements : List Node) :
    (run settings statements).Catches := by
  rw [Simulation.run_eq_runWith]
  exact .bind (.modify _) fun _ => .bind (executeFrom_catches _ _ _) fun x =>
    finishRun_catches settings x

theorem reportAll_catches (errors : List SyntaxError) : (reportAll errors).Catches := by
  induction errors with
  | nil => exact .pure _
  | cons e rest ih => exact .bind (.modify _) fun _ => ih

theorem request_catches (settings : Settings) (request : Request) :
    (request.run settings).Catches := by
  cases request with
  | source text =>
    refine .bind (reportAll_catches _) fun _ => ?_
    split
    · exact run_catches settings _
    · exact .pure _
  | tree node =>
    cases node with
    | many statements => exact run_catches settings statements
    | _ =>
      intro m e n h
      cases h

/-- No run of a session stops with a runtime error: it becomes part of the result. -/
theorem session_catches (settings : Settings) (requests : List Request) (m : Machine) :
    ∀ outcome ∈ session settings requests m, ∀ e n, outcome ≠ .stopped (.failed e) n := by
  induction requests generalizing m with
  | nil => exact fun _ h => absurd h List.not_mem_nil
  | cons request rest ih =>
    exact List.forall_mem_cons.mpr ⟨request_catches settings request m, ih _⟩

end LoxLang
