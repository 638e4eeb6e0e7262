/-
Programs from source texts do not break the machine.

Whatever source texts are run on one machine, one after the other, each run ends with a result
or goes on for longer than the machine has patience.  No run breaks off, none gives a value
back, and a runtime error is one of those that are foreseen (`Outcome.Safe`).

To say that every value ever stored, passed or returned is plain, the evaluator is `watched`.  It
raises an alarm if the machine holds another value when a node begins or ends, or if a node ends
with another value or gives one back.  What is stored or passed is a value that a node has ended
with, or else a new function or nil.  As the alarm is never raised, the watched runs are the runs
themselves (`sources_safe`).
-/
import LoxLang.Proofs.Machine.Reclaim
import LoxLang.Proofs.Machine.Sound

namespace LoxLang

/-! ### Watching -/

/-- Whether the value is nil, a boolean, a number, a text or a function. -/
def Value.isPlain : Value → Bool
  | .function _ => true
  | v => v.isScalar

/-- Whether every value that the machine holds is plain. -/
def Machine.isPlain (m : Machine) : Bool := m.arena.values.all Value.isPlain

/-- Whether the value that a node ends with, or gives back, is plain, and all that the machine
then holds. -/
def Outcome.isPlain : Outcome Value → Bool
  | .done v m => v.isPlain && m.isPlain
  | .stopped (.returned v) m => v.isPlain && m.isPlain
  | .stopped _ m => m.isPlain

/-- Raises an alarm, unless all values are plain before and after an effect. -/
def watched (x : Effect Value) : Effect Value := fun m =>
  if m.isPlain && (x m).isPlain then x m
  else .stopped (.broken .program) (x m).machine

/-- Where the alarm is not raised, all values are plain. -/
theorem isPlain_of_watched {x : Effect Value} {m : Machine}
    (h : ∀ n, watched x m ≠ .stopped (.broken .program) n) : m.isPlain ∧ (x m).isPlain := by
  rw [watched] at h
  split at h
  · rename_i hplain
    exact Bool.and_eq_true_iff.mp hplain
  · exact absurd rfl (h _)

/-- A whole number, which no source text makes, raises the alarm. -/
example : watched (pure (.integer 1)) .initial = .stopped (.broken .program) .initial := rfl

mutual

/-- Evaluates an expression, and watches it and all nodes inside it. -/
def watchedEvaluateUpTo (settings : Settings) : Nat → Node → Machine → Outcome Value
  | 0, _, m => .stopped .exhausted m
  | n + 1, node, m =>
    watched (evaluateStep settings (watchedEvaluateUpTo settings n)
      (watchedExecuteUpTo settings n) node) m

/-- Executes a statement, and watches it and all nodes inside it. -/
def watchedExecuteUpTo (settings : Settings) : Nat → Node → Machine → Outcome Value
  | 0, _, m => .stopped .exhausted m
  | n + 1, node, m =>
    watched (executeStep settings (watchedEvaluateUpTo settings n)
      (watchedExecuteUpTo settings n) n node) m

end

/-- Runs a source text, whose statements are executed in a given way. -/
def runSourceWith (settings : Settings) (execute : Node → Effect Value) (source : String) :
    Effect Completion := do
  let p := Program.ofSource source
  reportAll p.heard
  if p.ok then Simulation.runWith settings execute p.statements
  else return ⟨p.errors, none, .nil⟩

/-- The outcomes of some source texts, one after the other on one machine, whose statements are
executed in a given way. -/
def sourcesWith (settings : Settings) (execute : Node → Effect Value) :
    List String → Machine → List (Outcome Completion)
  | [], _ => []
  | source :: rest, m =>
    let outcome := runSourceWith settings execute source m
    outcome :: sourcesWith settings execute rest outcome.machine

/-- The outcomes of some source texts, the nodes of which are watched. -/
def watchedSources (settings : Settings) : List String → Machine → List (Outcome Completion) :=
  sourcesWith settings (watchedExecuteUpTo settings settings.patience)

theorem sourcesWith_executeUpTo (settings : Settings) (sources : List String) (m : Machine) :
    sourcesWith settings (executeUpTo settings settings.patience) sources m
      = session settings (sources.map .source) m := by
  induction sources generalizing m with
  | nil => rfl
  | cons source rest ih => exact congrArg (List.cons _) (ih _)

/-! ### The alarm is not raised -/

theorem Value.Sound.isPlain {v : Value} (h : v.Sound) : v.isPlain := by
  cases h with
  | function _ => rfl
  | @scalar v h =>
    cases v with
    | function _ => rfl
    | _ => exact h

theorem Machine.isPlain_of_holds {m : Machine} (h : m.arena.Holds Value.Sound) : m.isPlain := by
  rw [Machine.isPlain, List.all_eq_true]
  exact fun v hv => (h v hv).isPlain

variable {settings : Settings} {stops : soundness.World → Stop → Stop → Prop}
  {w : soundness.World}

/-- Where only sound values are given back, an effect that ends soundly is plain. -/
theorem Outcome.isPlain_of_related {x y : Outcome Value}
    (hstops : ∀ u v why, stops u (.returned v) why → v.Sound)
    (h : Outcome.Related soundness stops soundness.values w x y) : x.isPlain := by
  cases h with
  | done _ machines ends =>
    rw [Outcome.isPlain, ends.2.isPlain, Machine.isPlain_of_holds machines.2.2]
    rfl
  | @stopped u why why' m m' _ machines ends =>
    have hm := Machine.isPlain_of_holds machines.2.2
    cases why with
    | returned v =>
      rw [Outcome.isPlain, (hstops u v why' ends).isPlain, hm]
      rfl
    | failed _ | broken _ | exhausted => exact hm

/-- The alarm is not raised where an effect ends soundly. -/
theorem watched_related {x y : Effect Value}
    (hstops : ∀ u v why, stops u (.returned v) why → v.Sound)
    (h : Effect.Related soundness stops soundness.values w x y) :
    Effect.Related soundness stops soundness.values w (watched x) y := by
  intro u hu m m' hm
  have hxy := h u hu m m' hm
  -- The machine is sound before the effect, and the outcome after it: both tests succeed.
  rw [watched, Machine.isPlain_of_holds hm.2.2, Outcome.isPlain_of_related hstops hxy]
  exact hxy

theorem watched_halting {x y : Effect Value}
    (h : Effect.Related soundness soundness.Halting soundness.values w x y) :
    Effect.Related soundness soundness.Halting soundness.values w (watched x) y :=
  watched_related (fun _ v _ hstop => absurd rfl (hstop.2.2 v)) h

theorem watched_leaving {x y : Effect Value}
    (h : Effect.Related soundness soundness.Leaving soundness.values w x y) :
    Effect.Related soundness soundness.Leaving soundness.values w (watched x) y := by
  refine watched_related ?_ h
  rintro u v why (hstop | ⟨a, b, heq, -, -, hab⟩)
  · exact absurd rfl (hstop.2.2 v)
  · cases heq
    exact hab.2

/-- Watched nodes end as the nodes do. -/
theorem watched_upTo (settings : Settings) (n : Nat) :
    (soundSimulation settings).Expressions (watchedEvaluateUpTo settings n)
        (evaluateUpTo settings n) ∧
      (soundSimulation settings).Statements (watchedExecuteUpTo settings n)
        (executeUpTo settings n) := by
  induction n with
  | zero =>
    constructor
    · rintro w e _ u _ m m' hm
      exact .stopped rfl hm ⟨rfl, trivial, by simp⟩
    · rintro w e _ u _ m m' hm
      exact .stopped rfl hm (.inl ⟨rfl, trivial, by simp⟩)
  | succ n ih =>
    constructor
    · intro w e he
      exact watched_halting (Simulation.evaluateStep ih.1 ih.2 w e he)
    · intro w e he
      exact watched_leaving (Simulation.executeStep ih.1 ih.2 n w e he)

/-- One source text, with its nodes watched and without. -/
theorem watchedSource_related (settings : Settings) (source : String) :
    Effect.Related soundness soundness.Leaving (soundSimulation settings).Completions []
      (runSourceWith settings (watchedExecuteUpTo settings settings.patience) source)
      (runSourceWith settings (executeUpTo settings settings.patience) source) := by
  refine .seq ((soundSimulation settings).reportAll_related _ _).leaving ?_
  rintro u rfl _ _
  split
  · rename_i hok
    exact Simulation.runWith_related (watched_upTo settings _).2 (Program.ofSource_executable hok)
  · exact .pure fun _ _ => ⟨rfl, rfl, by simp, rfl, .scalar rfl⟩

/-- Outside all calls, runs that correspond end in the same way. -/
theorem Outcome.eq_of_related {x y : Outcome Completion}
    (h : Outcome.Related soundness soundness.Leaving (soundSimulation settings).Completions [] x y) :
    x = y := by
  cases h with
  | @done w r r' m m' _ machines ends =>
    obtain ⟨errors, error, value⟩ := r
    obtain ⟨errors', error', value'⟩ := r'
    obtain ⟨herrors, herror, -, hvalue, -⟩ := ends
    obtain rfl : m = m' := machines.1
    obtain rfl : errors = errors' := herrors
    obtain rfl : error = error' := herror
    obtain rfl : value = value' := hvalue
    rfl
  | @stopped w why why' m m' grown machines ends =>
    obtain rfl : m = m' := machines.1
    rcases ends with ⟨rfl, -⟩ | ⟨-, -, -, -, hactive, -⟩
    · rfl
    -- The world is still the empty list of calls, which is not active.
    · exact absurd grown.symm hactive

theorem machines_of_related {x : Outcome Completion}
    (h : Outcome.Related soundness soundness.Leaving (soundSimulation settings).Completions w x x) :
    soundness.machines w x.machine x.machine := by
  cases h with
  | done grown machines _ =>
    obtain rfl : w = _ := grown
    exact machines
  | stopped grown machines _ =>
    obtain rfl : w = _ := grown
    exact machines

theorem watchedSources_related (sources : List String) {m : Machine}
    (hm : soundness.machines [] m m) :
    watchedSources settings sources m
        = sourcesWith settings (executeUpTo settings settings.patience) sources m ∧
      ∀ outcome ∈ sourcesWith settings (executeUpTo settings settings.patience) sources m,
        Outcome.Related soundness soundness.Leaving (soundSimulation settings).Completions []
          outcome outcome := by
  induction sources generalizing m with
  | nil => exact ⟨rfl, fun _ h => absurd h List.not_mem_nil⟩
  | cons source rest ih =>
    have h := watchedSource_related settings source [] rfl m m hm
    have heq := Outcome.eq_of_related h
    rw [heq] at h
    -- The next source text is run on the machine that this one has left sound.
    obtain ⟨hrest, houtcomes⟩ := ih (machines_of_related h)
    have hwatched : watchedSources settings (source :: rest) m
        = runSourceWith settings (watchedExecuteUpTo settings settings.patience) source m ::
          watchedSources settings rest
            (runSourceWith settings (watchedExecuteUpTo settings settings.patience) source m).machine :=
      rfl
    rw [hwatched, heq, hrest]
    exact ⟨rfl, List.forall_mem_cons.mpr ⟨h, houtcomes⟩⟩

/-! ### Safety -/

/-- The run has ended with a result, and all values that are left are plain; or it goes on for
longer than the machine has patience.  A runtime error is one that is foreseen. -/
def Outcome.Safe : Outcome Completion → Prop
  | .done r m => (∀ e ∈ r.runtimeError, e.fault.Foreseen e.fault.message) ∧ r.value.isPlain ∧
      m.isPlain
  | .stopped why m => why = .exhausted ∧ m.isPlain

theorem Outcome.safe_of_related {x : Outcome Completion}
    (h : Outcome.Related soundness soundness.Leaving (soundSimulation settings).Completions [] x x)
    (hrefused : ∀ r n, x ≠ .stopped (.broken (.scopes r)) n)
    (hcaught : ∀ e n, x ≠ .stopped (.failed e) n) : x.Safe := by
  cases h with
  | done _ machines ends =>
    obtain ⟨-, -, herror, -, hvalue⟩ := ends
    exact ⟨herror, hvalue.isPlain, Machine.isPlain_of_holds machines.2.2⟩
  | @stopped w why _ m _ grown machines ends =>
    refine ⟨?_, Machine.isPlain_of_holds machines.2.2⟩
    rcases ends with ⟨-, hforeseen, -⟩ | ⟨-, -, -, -, hactive, -⟩
    · cases why with
      | broken b =>
        cases b with
        | scopes r => exact absurd rfl (hrefused r m)
        | _ => exact hforeseen.elim
      | exhausted => rfl
      | failed e => exact absurd rfl (hcaught e m)
      | returned v => exact hforeseen.elim
    · exact absurd grown.symm hactive

theorem machines_initial : soundness.machines [] .initial .initial :=
  ⟨rfl, rfl, Arena.holds_initial⟩

/-- Runs of source texts, one after the other on one machine, are safe. -/
theorem session_safe (level maxCalls patience : Nat) (sources : List String) :
    ∀ outcome ∈ session ⟨level, true, maxCalls, patience⟩ (sources.map .source) .initial,
      outcome.Safe := by
  have hrefused := session_not_refused level maxCalls patience (sources.map .source)
  have hcaught := session_catches ⟨level, true, maxCalls, patience⟩ (sources.map .source) .initial
  rw [← sourcesWith_executeUpTo] at hrefused hcaught ⊢
  intro outcome houtcome
  exact Outcome.safe_of_related ((watchedSources_related sources machines_initial).2 outcome houtcome)
    (hrefused outcome houtcome) (hcaught outcome houtcome)

/-- Programs from source texts are safe, however many are run on one machine.  Each run ends with a
result, unless it goes on for longer than the machine has patience, a runtime error is one of
those that are foreseen, and a run in which every node is watched is the run itself: no value
but a plain one is ever stored, passed or returned. -/
theorem sources_safe (level maxCalls patience : Nat) (sources : List String) :
    let settings : Settings := ⟨level, true, maxCalls, patience⟩
    (∀ outcome ∈ session settings (sources.map .source) .initial, outcome.Safe) ∧
      watchedSources settings sources .initial
        = session settings (sources.map .source) .initial := by
  intro settings
  refine ⟨session_safe level maxCalls patience sources, ?_⟩
  rw [← sourcesWith_executeUpTo]
  exact (watchedSources_related sources machines_initial).1

end LoxLang
