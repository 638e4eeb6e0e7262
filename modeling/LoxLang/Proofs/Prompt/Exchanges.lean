/-
Faulty lines at the prompt.

`talk` answers lines one after the other on one machine, and gives for each of them what was shown
(`Exchange`).  A line with a syntax error changes nothing but what is reported, and a line that
stops on a runtime error leaves the machine at rest, with all bindings that were made by then.

* `talk_filter` — lines with syntax errors may as well be left out;
* `Machine.Ready.run` — a machine is ready again after each run of a source text;
* `faulty_lines_do_no_harm` — both together, with what is shown for each line.
-/
import LoxLang.Prompt
import LoxLang.Proofs.Prompt.Faults

namespace LoxLang

/-- The machine when what it has printed and reported has been taken away. -/
def Machine.flushed (m : Machine) : Machine := { m with printed := #[], reported := #[] }

namespace Prompt

/-! ### Lines and what is shown for them -/

/-- What has come of a line: what was printed and what was reported, and whether the session is over
then, or why no answer was found. -/
structure Exchange where
  line : String
  printed : Array String
  reported : Array String
  ended : Except Stop Bool

/-- The machine was empty-handed before the line, so all that it holds has come of this line. -/
def Exchange.ofOutcome (line : String) : Outcome Bool → Exchange
  | .done ended m => ⟨line, m.printed, m.reported, .ok ended⟩
  | .stopped why m => ⟨line, m.printed, m.reported, .error why⟩

/-- What comes of some lines, each answered by the machine that the one before has left, and the
machine that is left at last.  What a line has shown is taken away before the next one.  Lines are
answered even after one has ended the session. -/
def talk (settings : Settings) : List String → Machine → List Exchange × Machine
  | [], m => ([], m.flushed)
  | line :: rest, m =>
    let outcome := step settings line m.flushed
    let later := talk settings rest outcome.machine
    (.ofOutcome line outcome :: later.1, later.2)

/-- Whether the line is taken for a program and has a syntax error. -/
def isBroken (line : String) : Bool :=
  match commandOf (strip line.toList) with
  | .program source => !(Program.ofSource source).ok
  | _ => false

variable {settings : Settings} {line source : String} {m n k : Machine} {r : Completion}
  {why : Stop}

theorem Exchange.ofOutcome_line (line : String) (outcome : Outcome Bool) :
    (Exchange.ofOutcome line outcome).line = line := by
  cases outcome with
  | done ended m => rfl
  | stopped why m => rfl

/-- What was printed and reported before makes no difference. -/
theorem talk_congr (h : m.flushed = n.flushed) (lines : List String) :
    talk settings lines m = talk settings lines n := by
  cases lines with
  | nil => rw [talk, talk, h]
  | cons line rest => rw [talk, talk, h]

theorem talk_flushed (lines : List String) (m : Machine) :
    (talk settings lines m).2.flushed = (talk settings lines m).2 := by
  induction lines generalizing m with
  | nil => rfl
  | cons line rest ih => exact ih _

theorem talk_append (before after : List String) (m : Machine) :
    talk settings (before ++ after) m =
      ((talk settings before m).1 ++ (talk settings after (talk settings before m).2).1,
        (talk settings after (talk settings before m).2).2) := by
  induction before generalizing m with
  | nil =>
    have hflushed : talk settings after m = talk settings after m.flushed :=
      talk_congr (m := m) (n := m.flushed) rfl after
    rw [List.nil_append, talk, hflushed]
    rfl
  | cons line rest ih =>
    rw [List.cons_append, talk, talk, ih]
    rfl

/-! ### Lines that are programs -/

theorem step_program (h : commandOf (strip line.toList) = .program source) :
    step settings line = runLine settings source >>= fun _ => pure false := by
  simp only [step, h]

/-- A program that ends with a result is answered, with an echo or without. -/
theorem step_of_done (h : commandOf (strip line.toList) = .program source)
    (hrun : runSource settings source m = .done r k) :
    step settings line m = .done false
      (if echoes (Program.ofSource source) r
        then { k with printed := k.printed.push r.value.display } else k) := by
  have hecho : (if echoes (Program.ofSource source) r then Effect.print r.value.display
      else pure () : Effect Unit) k = .done () (if echoes (Program.ofSource source) r
        then { k with printed := k.printed.push r.value.display } else k) := by
    split
    · rfl
    · rfl
  rw [step_program h]
  exact Effect.bind_of_done ((Effect.bind_of_done hrun).trans hecho)

theorem step_of_stopped (h : commandOf (strip line.toList) = .program source)
    (hrun : runSource settings source m = .stopped why k) :
    step settings line m = .stopped why k := by
  rw [step_program h]
  exact Effect.bind_of_stopped (Effect.bind_of_stopped hrun)

/-! ### Lines with syntax errors -/

theorem runSource_of_not_ok (hok : ¬(Program.ofSource source).ok) (m : Machine) :
    runSource settings source m = .done ⟨(Program.ofSource source).errors, none, .nil⟩
      { m with reported := m.reported ++
          ((Program.ofSource source).errors.map SyntaxError.report).toArray } := by
  have hheard : (Program.ofSource source).heard = (Program.ofSource source).errors :=
    Program.heard_ofTokens _
  rw [runSource, Request.runProgram_of_not_ok hok,
    Effect.bind_of_done (CommandLine.reportAll_apply _ m), hheard]
  rfl

/-- A line with syntax errors does not end the session, and does nothing but report them. -/
theorem step_of_isBroken (h : isBroken line) (settings : Settings) (m : Machine) :
    ∃ source, commandOf (strip line.toList) = .program source ∧
      step settings line m = .done false { m with reported := m.reported ++
        ((Program.ofSource source).errors.map SyntaxError.report).toArray } := by
  rw [isBroken] at h
  split at h
  · rename_i source hsource
    have hok : ¬(Program.ofSource source).ok := by
      rw [Bool.not_eq_true'] at h
      exact Bool.eq_false_iff.mp h
    have hechoes : echoes (Program.ofSource source)
        ⟨(Program.ofSource source).errors, none, .nil⟩ = false := by
      rw [Program.ok] at hok
      simp [echoes, Completion.status, hok]
    refine ⟨source, hsource, (step_of_done hsource (runSource_of_not_ok hok m)).trans ?_⟩
    rw [hechoes]
    rfl
  · cases h

/-- Lines with syntax errors may as well be left out. -/
theorem talk_filter (lines : List String) (m : Machine) :
    talk settings (lines.filter (!isBroken ·)) m =
      ((talk settings lines m).1.filter (!isBroken ·.line), (talk settings lines m).2) := by
  induction lines generalizing m with
  | nil => rfl
  | cons line rest ih =>
    have hline : (Exchange.ofOutcome line (step settings line m.flushed)).line = line :=
      Exchange.ofOutcome_line line _
    cases hbroken : isBroken line with
    | true =>
      obtain ⟨source, -, hstep⟩ := step_of_isBroken hbroken settings m.flushed
      -- The machine is the same, but for what has been reported.
      have hrest : talk settings rest (step settings line m.flushed).machine
          = talk settings rest m := talk_congr (by rw [hstep]; rfl) rest
      rw [List.filter_cons_of_neg (by simp [hbroken]), ih, talk, hrest,
        List.filter_cons_of_neg (by simp [hline, hbroken])]
    | false =>
      rw [List.filter_cons_of_pos (by simp [hbroken]), talk, talk, ih,
        List.filter_cons_of_pos (by simp [hline, hbroken])]

end Prompt

/-! ### Machines between two lines -/

/-- A machine that can be given the next program: no scope has been entered, all values are sound,
and there is a machine that keeps all scopes and is the same up to renaming. -/
structure Machine.Ready (m : Machine) : Prop where
  fits (named : Prop) : m.Fits (m.rest named)
  sound : soundness.machines [] m m
  renamed : ∃ w m', Machine.Renamed w m m'

namespace Machine.Ready

variable {m : Machine}

theorem initial : Machine.initial.Ready :=
  ⟨initial_fits, machines_initial, _, _, initial_renamed⟩

/-- What has been written makes no difference. -/
theorem written (hm : m.Ready) (printed traced reported : Array String) (traceOpen : Bool) :
    Machine.Ready { m with
      printed := printed, traced := traced, reported := reported, traceOpen := traceOpen } := by
  obtain ⟨hfits, hsound, w, m', hrenamed⟩ := hm
  refine ⟨fun named => ?_, ⟨rfl, hsound.2.1, hsound.2.2⟩, w, { m' with
      printed := printed, traced := traced, reported := reported, traceOpen := traceOpen }, ?_⟩
  · obtain ⟨htidy, hshape, hproper, htight, hcurrent, hcalls, hdeclared, houtside, hfunctions,
      hvalues, hbound⟩ := hfits named
    exact ⟨htidy, hshape, hproper, htight, hcurrent, hcalls, hdeclared, houtside, hfunctions,
      hvalues, hbound⟩
  · exact ⟨hrenamed.arena, hrenamed.current, hrenamed.calls, hrenamed.nextId, rfl, rfl, rfl, rfl⟩

theorem flushed (hm : m.Ready) : m.flushed.Ready := hm.written _ _ _ _

/-- The machine that reclaims scopes and one that keeps them all end alike. -/
theorem run_renamed (hm : m.Ready) (level maxCalls patience : Nat) (source : String) :
    (∀ r n, runSource ⟨level, true, maxCalls, patience⟩ source m
      ≠ .stopped (.broken (.scopes r)) n) ∧
    ∃ w m', Machine.Renamed w
      (runSource ⟨level, true, maxCalls, patience⟩ source m).machine m' := by
  obtain ⟨w, m', hrenamed⟩ := hm.renamed
  have hbroken : (reclaimSimulation level maxCalls patience).halts (.broken .program) := by
    simp [reclaimSimulation, upToRenaming]
  have hrelated := (reclaimSimulation level maxCalls patience).request_related rfl
    (Simulation.admits_of_statement (fun _ _ => trivial) hbroken w (.source source)) w
    (upToRenaming.le_refl w) m m' hrenamed
  show (∀ r n, Request.run _ (.source source) m ≠ _) ∧
    ∃ w m', Machine.Renamed w (Request.run _ (.source source) m).machine m'
  generalize Request.run ⟨level, true, maxCalls, patience⟩ (.source source) m = x,
    Request.run ⟨level, false, maxCalls, patience⟩ (.source source) m' = y at hrelated ⊢
  cases hrelated with
  | done _ machines _ => exact ⟨fun r n h => (by cases h), _, _, machines⟩
  | stopped _ machines ends =>
    refine ⟨?_, _, _, machines⟩
    rintro r n h
    cases h
    rcases ends with ⟨-, hhalts, -⟩ | ⟨a, b, heq, -⟩
    · exact hhalts r rfl
    · cases heq

/-- A source text is run to its end, or for longer than the machine has patience, and in both cases
the machine is ready again. -/
theorem run (hm : m.Ready) (level maxCalls patience : Nat) (source : String) :
    (runSource ⟨level, true, maxCalls, patience⟩ source m).Safe ∧
      (runSource ⟨level, true, maxCalls, patience⟩ source m).machine.Ready := by
  set settings : Settings := ⟨level, true, maxCalls, patience⟩
  obtain ⟨hrefused, hrenamed⟩ := hm.run_renamed level maxCalls patience source
  have hcaught : ∀ e n, runSource settings source m ≠ .stopped (.failed e) n := fun e n =>
    request_catches settings (.source source) m e n
  have hadmits : (soundSimulation settings).Admits [] (.source source) :=
    Program.ofSource_executable
  have hsound : Outcome.Related soundness soundness.Leaving (soundSimulation settings).Completions
      [] (runSource settings source m) (runSource settings source m) :=
    (soundSimulation settings).request_related rfl hadmits [] rfl m m hm.sound
  have hnamed : ∀ r ∈ [Request.source source], r.NamesParameters := by
    simp [Request.NamesParameters]
  have hfits (named : Prop) : (leftBy settings [.source source] m).Fits
      ((leftBy settings [.source source] m).rest named) :=
    leftBy_fits rfl (fun _ => hnamed) (hm.fits named)
  exact ⟨Outcome.safe_of_related hsound hrefused hcaught,
    hfits, machines_of_related hsound, hrenamed⟩

end Machine.Ready

/-- The machine is at the global scope with no call under way, it has no scopes but those that
functions close over, and all its values are plain. -/
structure Machine.AtRest (m : Machine) : Prop where
  current : m.current = Arena.globals
  calls : m.calls = []
  pinned : ∀ h s, m.arena.scope h = .ok s → s.pinned = true
  plain : m.isPlain

theorem Machine.Ready.atRest {m : Machine} (hm : m.Ready) : m.AtRest where
  current := (hm.fits True).current
  calls := (hm.fits True).calls
  pinned h s hs := by
    cases hpinned : s.pinned with
    | true => rfl
    | false =>
      have hshape := Arena.shape_of_scope hs
      rw [hpinned] at hshape
      exact absurd ((hm.fits True).tight trivial h s.parent hshape) List.not_mem_nil
  plain := Machine.isPlain_of_holds hm.sound.2.2

/-! ### What is shown for a line -/

/-- The last of some statements, when all of them have been executed. -/
theorem executeFrom_concat {execute : Node → Effect Value} {es : List Node} {e : Node}
    {last v : Value} {m k : Machine}
    (h : executeFrom execute (es ++ [e]) last m = .done (v, none) k) :
    ∃ m₁, executeAll execute es m = .done () m₁ ∧ execute e m₁ = .done v k := by
  induction es generalizing last m with
  | nil =>
    refine ⟨m, rfl, ?_⟩
    rw [List.nil_append, executeFrom] at h
    beta_reduce at h
    cases he : execute e m with
    | done w n =>
      rw [he] at h
      cases h
      rfl
    | stopped why n =>
      rw [he] at h
      cases why <;> cases h
  | cons f es ih =>
    rw [List.cons_append, executeFrom] at h
    beta_reduce at h
    cases hf : execute f m with
    | done w n =>
      rw [hf] at h
      obtain ⟨m₁, hes, he⟩ := ih h
      exact ⟨m₁, (executeAll_of_done hf es).trans hes, he⟩
    | stopped why n =>
      rw [hf] at h
      cases why <;> cases h

namespace Prompt

variable {settings : Settings} {line source : String} {m k : Machine} {r : Completion}

/-- What is shown for a program that has ended with a result: what it has printed, with the value of
its last statement after that exactly if it has ended without an error and this statement is an
expression; and the error, if there is one, which leaves all bindings that were made before it. -/
structure Exchange.Shows (settings : Settings) (source : String) (m : Machine) (r : Completion)
    (k : Machine) (x : Exchange) (n : Machine) : Prop where
  goesOn : x.ended = .ok false
  printed : x.printed =
    if r.runtimeError = none ∧ (Program.ofSource source).statements.getLast?.any isExpression
    then k.printed.push r.value.display else k.printed
  value : ∀ before e, (Program.ofSource source).statements = before ++ [.evaluate e] →
    r.runtimeError = none → ∃ M k', (Request.source source).Reaches settings m M ∧
      M.node = .evaluate e ∧ M.frames = [] ∧ M.outcome settings = .done r.value k'
  reported : x.reported = (r.runtimeError.toList.map RuntimeError.report).toArray
  unwinds : ∀ e, r.runtimeError = some e → (Request.source source).Unwinds settings m e n

theorem printAll_apply (lines : List String) (m : Machine) :
    lines.forM Effect.print m = .done () { m with printed := m.printed ++ lines.toArray } := by
  induction lines generalizing m with
  | nil => simp; rfl
  | cons line rest ih =>
    show rest.forM Effect.print { m with printed := m.printed.push line } = _
    rw [ih]
    simp

/-- A line that is no program prints at most. -/
theorem step_of_command (h : ∀ source, commandOf (strip line.toList) ≠ .program source)
    (settings : Settings) (m : Machine) :
    ∃ ended printed, step settings line m = .done ended { m with printed := printed } := by
  cases hcommand : commandOf (strip line.toList) with
  | nothing =>
    simp only [step, hcommand]
    exact ⟨_, _, rfl⟩
  | exit =>
    simp only [step, hcommand]
    exact ⟨_, _, rfl⟩
  | endOfInput =>
    simp only [step, hcommand]
    exact ⟨_, _, rfl⟩
  | help topic =>
    simp only [step, hcommand]
    exact ⟨_, _, Effect.bind_of_done (printAll_apply _ m)⟩
  | program source => exact absurd hcommand (h source)

/-- A line is answered, or its program goes on for longer than the machine has patience, and the
machine is ready for the next one. -/
theorem step_ready (hm : m.Ready) (level maxCalls patience : Nat) (line : String) :
    (step ⟨level, true, maxCalls, patience⟩ line m).machine.Ready ∧
      ∀ why n, step ⟨level, true, maxCalls, patience⟩ line m = .stopped why n →
        why = .exhausted := by
  set settings : Settings := ⟨level, true, maxCalls, patience⟩
  by_cases hcommand : ∃ source, commandOf (strip line.toList) = .program source
  · obtain ⟨source, hcommand⟩ := hcommand
    obtain ⟨hsafe, hready⟩ := hm.run level maxCalls patience source
    have hsettings : (⟨level, true, maxCalls, patience⟩ : Settings) = settings := rfl
    rw [hsettings] at hsafe hready
    cases hrun : runSource settings source m with
    | done r k =>
      rw [hrun] at hready
      rw [step_of_done hcommand hrun]
      refine ⟨?_, fun why n h => by cases h⟩
      rw [Outcome.machine]
      split
      · exact hready.written _ _ _ _
      · exact hready
    | stopped why k =>
      rw [hrun] at hready hsafe
      rw [step_of_stopped hcommand hrun]
      refine ⟨hready, ?_⟩
      rintro why' n ⟨⟩
      exact hsafe.1
  · obtain ⟨ended, printed, hstep⟩ :=
      step_of_command (fun source h => hcommand ⟨source, h⟩) settings m
    rw [hstep]
    exact ⟨hm.written _ _ _ _, fun why n h => by cases h⟩

/-- The machine is ready between any two lines. -/
theorem talk_ready (hm : m.Ready) (level maxCalls patience : Nat) (lines : List String) :
    (talk ⟨level, true, maxCalls, patience⟩ lines m).2.Ready := by
  induction lines generalizing m with
  | nil => exact hm.flushed
  | cons line rest ih => exact ih (step_ready hm.flushed level maxCalls patience line).1

/-- A value is shown exactly after a run without errors whose last statement is an expression. -/
theorem echoes_iff (herrors : r.syntaxErrors = []) (p : Program) :
    echoes p r = true ↔ r.runtimeError = none ∧ p.statements.getLast?.any isExpression := by
  rw [echoes, Completion.status, herrors]
  cases r.runtimeError with
  | none => simp
  | some e => simp

/-- A program without syntax errors is started without a report. -/
theorem opening_of_ok (hok : (Program.ofSource source).ok) (settings : Settings)
    (statements : List Node) (m : Machine) :
    ∃ m₀, (Request.source source).opening settings statements m = .done () m₀ ∧
      m₀.reported = m.reported := by
  have htrace := Effect.Along.trace (R := Machine.Quiet) settings.level
    ("run " ++ toString statements.length ++ " statement(s)") m
  refine ⟨_, ?_, htrace.1⟩
  rw [Request.opening, Program.heard_of_ok hok]
  rfl

theorem shows_of_run (hreclaim : settings.reclaim = true) (hm : m.Fits (m.rest False))
    (hreported : m.reported = #[]) (hcommand : commandOf (strip line.toList) = .program source)
    (hok : (Program.ofSource source).ok) (hrun : runSource settings source m = .done r k) :
    (Exchange.ofOutcome line (step settings line m)).Shows settings source m r k
      (step settings line m).machine := by
  have hstatements : (Request.source source).statements?
      = some (Program.ofSource source).statements := if_pos hok
  obtain ⟨m₀, opened, hopened⟩ := opening_of_ok hok settings
    (Program.ofSource source).statements m
  obtain ⟨k₀, hexecuted, herrors, -, hreports⟩ :=
    Request.executeFrom_of_run hstatements opened hrun
  have hechoes := echoes_iff herrors (Program.ofSource source)
  rw [hopened, hreported, Array.empty_append] at hreports
  rw [step_of_done hcommand hrun]
  constructor
  case goesOn => rfl
  case printed =>
    show Machine.printed _ = _
    by_cases h : echoes (Program.ofSource source) r
    · rw [if_pos h, if_pos (hechoes.mp h)]
    · rw [if_neg h, if_neg (mt hechoes.mpr h)]
  case value =>
    intro before e hlast hnone
    rw [hlast, hnone] at hexecuted
    obtain ⟨m₁, hbefore, he⟩ := executeFrom_concat hexecuted
    rw [hlast] at hstatements opened
    exact ⟨_, k₀, .statement hstatements opened hbefore, rfl, rfl, he⟩
  case reported =>
    refine Eq.trans ?_ hreports
    show Machine.reported _ = _
    split
    · rfl
    · rfl
  case unwinds =>
    intro e herror
    -- After an error nothing is shown, so this is the machine that the run has left.
    have hsilent : ¬echoes (Program.ofSource source) r := fun h => by
      rw [(hechoes.mp h).1] at herror
      cases herror
    rw [if_neg hsilent]
    exact Request.unwinds_of_run hreclaim hm hrun herror

/-- **Faulty lines do no harm at the prompt.**  Lines that have syntax errors may as well be left
out: the other lines are answered as they are with them, and the machine is the same at last.  Such
a line prints nothing and does not end the session.  Before and after each line of a session the
machine is at rest.  Each line is answered, unless its program goes on for longer than the machine
has patience; and a program without syntax errors shows its value exactly if it ends without a
runtime error and its last statement is an expression, while an error is reported and leaves all
bindings that were made before it. -/
theorem faulty_lines_do_no_harm (level maxCalls patience : Nat) (lines : List String) :
    let settings : Settings := ⟨level, true, maxCalls, patience⟩
    (∀ m, talk settings (lines.filter (!isBroken ·)) m =
      ((talk settings lines m).1.filter (!isBroken ·.line), (talk settings lines m).2)) ∧
    ∀ before line after, lines = before ++ line :: after →
      let m := (talk settings before .initial).2
      let n := (step settings line m).machine
      let x := Exchange.ofOutcome line (step settings line m)
      talk settings lines .initial = ((talk settings before .initial).1 ++
        x :: (talk settings after n).1, (talk settings after n).2) ∧
      m.AtRest ∧ n.AtRest ∧
      (isBroken line → x.printed = #[] ∧ x.ended = .ok false ∧ n.flushed = m) ∧
      (∀ why, x.ended = .error why → why = .exhausted) ∧
      ∀ source, commandOf (strip line.toList) = .program source → (Program.ofSource source).ok →
        (∃ r k, runSource settings source m = .done r k ∧ x.Shows settings source m r k n) ∨
        ∃ k, runSource settings source m = .stopped .exhausted k ∧ x.printed = k.printed ∧
          x.ended = .error .exhausted := by
  intro settings
  refine ⟨talk_filter lines, ?_⟩
  rintro before line after rfl m n x
  have hm : m.Ready := talk_ready .initial level maxCalls patience before
  have hflushed : m.flushed = m := talk_flushed before .initial
  have hprinted : m.printed = #[] := (congrArg Machine.printed hflushed).symm
  have hreported : m.reported = #[] := (congrArg Machine.reported hflushed).symm
  obtain ⟨hn, hends⟩ := step_ready hm level maxCalls patience line
  refine ⟨?_, hm.atRest, hn.atRest, fun hbroken => ?_, fun why hwhy => ?_,
    fun source hcommand hok => ?_⟩
  · rw [talk_append, talk, hflushed]
  · obtain ⟨source, -, hstep⟩ := step_of_isBroken hbroken settings m
    simp only [x, n, hstep]
    exact ⟨hprinted, rfl, hflushed⟩
  · cases hstep : step settings line m with
    | done ended k =>
      simp only [x, hstep] at hwhy
      cases hwhy
    | stopped why' k =>
      simp only [x, hstep] at hwhy
      cases hwhy
      exact hends _ k hstep
  · obtain ⟨hsafe, -⟩ := hm.run level maxCalls patience source
    have hsettings : (⟨level, true, maxCalls, patience⟩ : Settings) = settings := rfl
    rw [hsettings] at hsafe
    cases hrun : runSource settings source m with
    | done r k =>
      exact .inl ⟨r, k, rfl, shows_of_run rfl (hm.fits False) hreported hcommand hok hrun⟩
    | stopped why k =>
      rw [hrun] at hsafe
      obtain ⟨rfl, -⟩ := hsafe
      refine .inr ⟨k, rfl, ?_⟩
      simp only [x, step_of_stopped hcommand hrun]
      exact ⟨rfl, rfl⟩

/-- A line with a syntax error, and one with a block that stops when it has bound a name anew. -/
theorem faulty_lines_do_no_harm_of_block :
    let settings : Settings := ⟨0, true, 8, 16⟩
    let broken := "print (;"
    let failing := "\x7b a = \"y\"; print -a; \x7d"
    let m := (talk settings ["var a = \"x\";", broken] .initial).2
    let n := (step settings failing m).machine
    let whole := talk settings ["var a = \"x\";", broken, failing, "a;"] .initial
    whole.1.map (·.printed) = [#[], #[], #[], #["y"]] ∧
      whole.1.map (·.reported.size) = [0, 1, 1, 0] ∧
      talk settings ["var a = \"x\";", failing, "a;"] .initial
        = (whole.1.filter (!isBroken ·.line), whole.2) ∧
      (step settings broken (talk settings ["var a = \"x\";"] .initial).2).machine.flushed
        = (talk settings ["var a = \"x\";"] .initial).2 ∧
      n.AtRest ∧ ∃ error, (Request.source failing).Unwinds settings m error n := by
  intro settings broken failing m n whole
  obtain ⟨hfilter, hlines⟩ := faulty_lines_do_no_harm 0 8 16
    ["var a = \"x\";", broken, failing, "a;"]
  obtain ⟨-, -, -, hbroken, -⟩ := hlines ["var a = \"x\";"] broken [failing, "a;"] rfl
  obtain ⟨-, -, hn, -, -, hprogram⟩ := hlines ["var a = \"x\";", broken] failing ["a;"] rfl
  have hcommand : commandOf (strip failing.toList) = .program failing := by decide +kernel
  have hok : (Program.ofSource failing).ok := by decide +kernel
  have hanswered : (Exchange.ofOutcome failing (step settings failing m)).ended.isOk = true := by
    decide +kernel
  have hreported : (Exchange.ofOutcome failing (step settings failing m)).reported.size = 1 := by
    decide +kernel
  have hwhole : [("var a = \"x\";" : String), broken, failing, "a;"].filter (!isBroken ·)
      = ["var a = \"x\";", failing, "a;"] := by decide +kernel
  rw [hwhole] at hfilter
  refine ⟨by decide +kernel, by decide +kernel, hfilter .initial, ?_, hn, ?_⟩
  · exact (hbroken (by decide +kernel)).2.2
  obtain ⟨r, k, -, hshows⟩ | ⟨k, -, -, hended⟩ := hprogram failing hcommand hok
  · rw [hshows.reported] at hreported
    cases herror : r.runtimeError with
    | none =>
      rw [herror] at hreported
      cases hreported
    | some error => exact ⟨error, hshows.unwinds error herror⟩
  · rw [hended] at hanswered
    cases hanswered

end Prompt

end LoxLang
