/-
The exit status of a script, and what it has written.

A run either executes no statement, because of syntax errors, or executes the statements one after
the other until one stops.  A runtime error becomes part of the result (`Caught`), and only then is
it reported, for statements report nothing themselves.

* `answerRun_of_done`, `answerRun_of_failed` — what is answered when the statements have ended;
* `answerScript_cases` — the three ways in which a script ends;
* `script_ends_with_status` — the status tells them apart.
-/
import LoxLang.Proofs.CommandLine.EmittedTree
import LoxLang.Proofs.Machine.Course
import LoxLang.Proofs.Machine.Safety
import LoxLang.Proofs.Machine.Tracing
import LoxLang.Proofs.Reader.Bounds

namespace LoxLang

/-! ### The end of a run -/

/-- How a list of statements ends, when a runtime error is made part of the result. -/
inductive Caught (x : Outcome Unit) : Outcome (Value × Option RuntimeError) → Prop where
  | done {v : Value} {n : Machine} (h : x = .done () n) : Caught x (.done (v, none) n)
  | failed {v : Value} {e : RuntimeError} {n : Machine} (h : x = .stopped (.failed e) n) :
    Caught x (.done (v, some e) n)
  | stopped {why : Stop} {n : Machine} (h : x = .stopped why n) (hwhy : ∀ e, why ≠ .failed e) :
    Caught x (.stopped why n)

theorem executeFrom_caught (execute : Node → Effect Value) (es : List Node) (last : Value)
    (m : Machine) : Caught (executeAll execute es m) (executeFrom execute es last m) := by
  induction es generalizing last m with
  | nil => exact .done rfl
  | cons e es ih =>
    rw [executeFrom]
    beta_reduce
    cases h : execute e m with
    | done v n =>
      rw [executeAll_of_done h]
      exact ih v n
    | stopped why n =>
      rw [executeAll_of_stopped h]
      cases why with
      | failed e => exact .failed rfl
      | returned v => exact .stopped rfl (by simp)
      | broken b => exact .stopped rfl (by simp)
      | exhausted => exact .stopped rfl (by simp)

/-- While the trace is open, a traced line goes nowhere else. -/
theorem trace_apply (level : Nat) (line : String) {m : Machine} (hopen : m.traceOpen = true) :
    ∃ lines, Effect.trace level line m = .done () (m.retraced lines) := by
  have h := traceFrom_apply 0 (.tracing level) line hopen
  rw [traceFrom, if_pos (Nat.zero_le _)] at h
  exact ⟨_, h⟩

/-- The end of a run writes the line for a runtime error, and nothing else but to the trace. -/
theorem finishRun_apply (settings : Settings) (v : Value) (error : Option RuntimeError)
    {m : Machine} (hopen : m.traceOpen = true) :
    ∃ lines, Simulation.finishRun settings (v, error) m = .done ⟨[], error, v⟩
      (Machine.retraced { m with
        reported := m.reported ++ (error.toList.map RuntimeError.report).toArray } lines) := by
  have last (n : Machine) (hn : n.traceOpen = true) :
      ∃ lines, (Effect.trace settings.level
          ("run finished: " ++ (Completion.mk [] error v).status.name) >>= fun _ =>
            pure (Completion.mk [] error v)) n = .done ⟨[], error, v⟩ (n.retraced lines) := by
    obtain ⟨lines, h⟩ := trace_apply settings.level
      ("run finished: " ++ (Completion.mk [] error v).status.name) hn
    exact ⟨lines, Effect.bind_of_done h⟩
  cases error with
  | none =>
    obtain ⟨lines, h⟩ := last m hopen
    refine ⟨lines, h.trans ?_⟩
    simp [Machine.retraced]
  | some e =>
    obtain ⟨lines, h⟩ := trace_apply settings.level ("runtime error: " ++ e.report) hopen
    obtain ⟨lines', h'⟩ := last
      { m.retraced lines with reported := m.reported.push e.report } hopen
    refine ⟨lines', (Effect.bind_of_done h).trans (h'.trans ?_)⟩
    simp [Machine.retraced]

/-! ### What is answered -/

namespace CommandLine

/-- The machine in which the first statement of a program is executed. -/
def started (level : Nat) (statements : List Node) : Machine :=
  (Effect.trace level ("run " ++ toString statements.length ++ " statement(s)") .initial).machine

/-- The statements of a program, one after the other until one of them stops. -/
def execution (level : Nat) (statements : List Node) : Outcome Unit :=
  executeAll (executeUpTo (.tracing level) (Settings.tracing level).patience) statements
    (started level statements)

section

variable {level : Nat} {statements : List Node}

theorem started_eq (level : Nat) (statements : List Node) :
    ∃ lines, Effect.trace level ("run " ++ toString statements.length ++ " statement(s)") .initial
        = .done () (started level statements) ∧
      started level statements = Machine.initial.retraced lines := by
  obtain ⟨lines, h⟩ := trace_apply level
    ("run " ++ toString statements.length ++ " statement(s)") (m := .initial) rfl
  have hstarted : started level statements = Machine.initial.retraced lines := by
    rw [started, h]
    rfl
  exact ⟨lines, by rw [hstarted]; exact h, hstarted⟩

/-- When the statements have ended, no error has been reported yet and the trace is open. -/
theorem execution_quiet (level : Nat) (statements : List Node) :
    (execution level statements).machine.reported = #[] ∧
      (execution level statements).machine.traceOpen = true := by
  obtain ⟨lines, -, hstarted⟩ := started_eq level statements
  have hquiet := executeAll_quiet (.tracing level) (Settings.tracing level).patience statements
    (started level statements)
  exact ⟨hquiet.1.trans (by rw [hstarted]; rfl), hquiet.2.trans (by rw [hstarted]; rfl)⟩

/-- A run is its statements and then its end. -/
theorem run_eq (level : Nat) (statements : List Node) : run (.tracing level) statements .initial =
    (executeFrom (executeUpTo (.tracing level) (Settings.tracing level).patience) statements .nil
      >>= Simulation.finishRun (.tracing level)) (started level statements) := by
  obtain ⟨lines, h, -⟩ := started_eq level statements
  rw [Simulation.run_eq_runWith]
  exact Effect.bind_of_done h

/-- What a run ends with, and what it has written, when its statements have ended. -/
theorem answerRun_of_caught {v : Value} {error : Option RuntimeError} {m : Machine}
    (h : executeFrom (executeUpTo (.tracing level) (Settings.tracing level).patience) statements .nil
      (started level statements) = .done (v, error) m)
    (hreported : m.reported = #[]) (hopen : m.traceOpen = true) :
    ∃ trace, answerRun level (run (.tracing level) statements) =
      ⟨.status (statusOf ⟨[], error, v⟩), unlines m.printed,
        unlines (error.toList.map RuntimeError.report).toArray, trace⟩ := by
  obtain ⟨lines, hend⟩ := finishRun_apply (.tracing level) v error hopen
  rw [hreported, Array.empty_append] at hend
  have hrun := (run_eq level statements).trans ((Effect.bind_of_done h).trans hend)
  exact ⟨_, answerRun_of_done hrun level⟩

theorem answerRun_cases (level : Nat) (statements : List Node) :
    (∃ m trace, execution level statements = .done () m ∧
      answerRun level (run (.tracing level) statements) =
        ⟨.status 0, unlines m.printed, "", trace⟩) ∨
    (∃ e m trace, execution level statements = .stopped (.failed e) m ∧
      answerRun level (run (.tracing level) statements) =
        ⟨.status 70, unlines m.printed, e.report ++ "\n", trace⟩) ∨
    ∃ why m, (∀ e, why ≠ .failed e) ∧ execution level statements = .stopped why m ∧
      run (.tracing level) statements .initial = .stopped why m := by
  have hcaught := executeFrom_caught
    (executeUpTo (.tracing level) (Settings.tracing level).patience) statements .nil
    (started level statements)
  obtain ⟨hreported, hopen⟩ := execution_quiet level statements
  rw [execution] at hreported hopen ⊢
  generalize hx : executeFrom (executeUpTo (.tracing level) (Settings.tracing level).patience)
    statements .nil (started level statements) = x at hcaught
  cases hcaught with
  | @done v m h =>
    rw [h] at hreported hopen ⊢
    obtain ⟨trace, hanswer⟩ := answerRun_of_caught hx hreported hopen
    exact .inl ⟨m, trace, rfl, hanswer⟩
  | @failed v e m h =>
    rw [h] at hreported hopen ⊢
    obtain ⟨trace, hanswer⟩ := answerRun_of_caught hx hreported hopen
    exact .inr (.inl ⟨e, m, trace, rfl, hanswer⟩)
  | @stopped why m h hwhy =>
    refine .inr (.inr ⟨why, m, hwhy, h, ?_⟩)
    exact (run_eq level statements).trans (Effect.bind_of_stopped hx)

end

section

variable {level : Nat} {source : String}

theorem ok_iff (p : Program) : p.ok ↔ p.errors = [] := by
  rw [Program.ok, List.isEmpty_iff]

theorem runSource_of_ok (hok : (Program.ofSource source).ok) (settings : Settings) :
    runSource settings source = run settings (Program.ofSource source).statements := by
  rw [runSource, Request.runProgram_of_ok hok, Program.heard_of_ok hok]
  rfl

/-- A program without syntax errors stops early only where it goes on for longer than the machine
has patience. -/
theorem exhausted_of_stopped (hok : (Program.ofSource source).ok) {why : Stop} {m : Machine}
    (h : run (.tracing level) (Program.ofSource source).statements .initial = .stopped why m) :
    why = .exhausted := by
  rw [← runSource_of_ok hok] at h
  have hsafe := session_safe level (Settings.tracing level).maxCalls (Settings.tracing level).patience
    [source] (runSource (.tracing level) source .initial) (List.mem_singleton_self _)
  rw [h] at hsafe
  exact hsafe.1

/-- With syntax errors it does not matter how statements are executed. -/
theorem runSourceWith_of_not_ok (hok : ¬(Program.ofSource source).ok) (settings : Settings)
    (execute : Node → Effect Value) :
    runSourceWith settings execute source = runSource settings source := by
  rw [runSourceWith, runSource, runProgram]
  simp only [if_neg hok]

/-- How a script ends: it is not executed because of syntax errors, or it is executed until it
stops on a runtime error, or until its end. -/
theorem answerScript_cases (hends : (answerScript level source).ending ≠ .stopped .exhausted) :
    ((Program.ofSource source).errors ≠ [] ∧ ∃ trace, answerScript level source =
      ⟨.status 65, "",
        unlines ((Program.ofSource source).errors.map SyntaxError.report).toArray, trace⟩) ∨
    ((Program.ofSource source).errors = [] ∧ ∃ e m trace,
      execution level (Program.ofSource source).statements = .stopped (.failed e) m ∧
      answerScript level source =
        ⟨.status 70, unlines m.printed, e.report ++ "\n", trace⟩) ∨
    ((Program.ofSource source).errors = [] ∧ ∃ m trace,
      execution level (Program.ofSource source).statements = .done () m ∧
      answerScript level source = ⟨.status 0, unlines m.printed, "", trace⟩) := by
  by_cases hok : (Program.ofSource source).ok
  · have herrors := (ok_iff _).mp hok
    rw [answerScript_of_ok hok] at hends ⊢
    obtain ⟨m, trace, hdone, hanswer⟩ | ⟨e, m, trace, hfailed, hanswer⟩ | ⟨why, m, -, -, hrun⟩ :=
      answerRun_cases level (Program.ofSource source).statements
    · exact .inr (.inr ⟨herrors, m, trace, hdone, hanswer⟩)
    · exact .inr (.inl ⟨herrors, e, m, trace, hfailed, hanswer⟩)
    · rw [answerRun, hrun, exhausted_of_stopped hok hrun] at hends
      exact absurd rfl hends
  · have hheard : (Program.ofSource source).heard = (Program.ofSource source).errors :=
      Program.heard_ofTokens _
    refine .inl ⟨mt (ok_iff _).mpr hok, traceFiles level .initial, ?_⟩
    rw [answerScript_eq_of_not_ok hok, hheard]

end

/-- The exit status, the output and the reports of a script agree, at every trace level, unless the
run goes on for longer than the machine has patience.

* The status is 65, 70 or 0.
* It is 65 exactly if there is a syntax error.  Then the errors are reported one after the other as
  they were found, there is no output, and it does not matter how statements are executed.
* It is 70 exactly if there is no syntax error and the statements stop on a runtime error.  Then
  this is reported and nothing else, and the output is what has been printed by then.
* It is 0 exactly if the statements are executed to the end.  Then nothing is reported. -/
theorem script_ends_with_status {arguments : List String} {files : Files} {input path : String}
    {level : Nat} {bytes : ByteArray} {source : String}
    (hrequest : requestOf arguments = .ok (.script level path))
    (hpath : isDirectory (cleanPath path) = false)
    (hfile : files.lookup (cleanPath path) = some bytes) (hsource : decode bytes = some source)
    (hends : (answerTo arguments files input).ending ≠ .stopped .exhausted) :
    let answer := answerTo arguments files input
    let p := Program.ofSource source
    (answer.ending = .status 65 ∨ answer.ending = .status 70 ∨ answer.ending = .status 0) ∧
    ((answer.ending = .status 65 ↔ p.errors ≠ []) ∧
      (answer.ending = .status 65 → answer.out = "" ∧
        answer.err = unlines (p.errors.map SyntaxError.report).toArray ∧
        ∀ execute, runSourceWith (.tracing level) execute source
          = runSource (.tracing level) source)) ∧
    ((answer.ending = .status 70 ↔
        p.errors = [] ∧ ∃ e m, execution level p.statements = .stopped (.failed e) m) ∧
      ∀ e m, answer.ending = .status 70 → execution level p.statements = .stopped (.failed e) m →
        answer.err = e.report ++ "\n" ∧ answer.out = unlines m.printed) ∧
    ((answer.ending = .status 0 ↔
        p.errors = [] ∧ ∃ m, execution level p.statements = .done () m) ∧
      ∀ m, answer.ending = .status 0 → execution level p.statements = .done () m →
        answer.err = "" ∧ answer.out = unlines m.printed) := by
  intro answer p
  have hanswer : answer = answerScript level source := by
    show answerTo arguments files input = _
    rw [answerTo, hrequest]
    exact withText_of_lookup hpath hfile hsource _
  have hends' : (answerScript level source).ending ≠ .stopped .exhausted := by
    rw [← hanswer]
    exact hends
  obtain ⟨herrors, trace, h⟩ | ⟨herrors, e, m, trace, hfailed, h⟩ | ⟨herrors, m, trace, hdone, h⟩ :=
    answerScript_cases hends'
  · have hok : ¬p.ok := mt (ok_iff p).mp herrors
    rw [hanswer, h]
    simp [p, herrors, runSourceWith_of_not_ok hok]
  · rw [hanswer, h]
    simp [p, herrors, hfailed]
  · rw [hanswer, h]
    simp [p, herrors, hdone]

/-- A script that prints and then stops at a name that nothing has. -/
theorem script_ends_with_status_of_error :
    let source := "print \"a\";\nprint b;\nprint \"c\";"
    let answer := answerTo ["-vv", "./a.lox"] [("a.lox", source.toUTF8)] ""
    answer.ending = .status 70 ∧ ∃ e m,
      execution 2 (Program.ofSource source).statements = .stopped (.failed e) m ∧
      answer.err = e.report ++ "\n" ∧ answer.out = unlines m.printed := by
  intro source answer
  have hclean : cleanPath "./a.lox" = "a.lox" := by decide +kernel
  have hrequest : requestOf ["-vv", "./a.lox"] = .ok (.script 2 "./a.lox") := by decide +kernel
  have hpath : isDirectory (cleanPath "./a.lox") = false := by decide +kernel
  have hfile : ([("a.lox", source.toUTF8)] : Files).lookup (cleanPath "./a.lox")
      = some source.toUTF8 := by
    rw [hclean]
    rfl
  have hsource : decode source.toUTF8 = some source := decode_toUTF8 (by decide +kernel)
  have hanswer : answer = answerScript 2 source := by
    show answerTo _ _ _ = _
    rw [answerTo, hrequest]
    exact withText_of_lookup hpath hfile hsource _
  have hending : answer.ending = .status 70 := by
    have hstatus : (match (answerScript 2 source).ending with
        | .status code => code
        | _ => 0) = 70 := by decide +kernel
    rw [hanswer]
    generalize (answerScript 2 source).ending = ending at hstatus
    cases ending with
    | status code => exact congrArg Ending.status hstatus
    | _ => cases hstatus
  have hends : answer.ending ≠ .stopped .exhausted := by
    rw [hending]
    nofun
  obtain ⟨-, -, ⟨hiff, hreport⟩, -⟩ := script_ends_with_status hrequest hpath hfile hsource hends
  obtain ⟨-, e, m, hfailed⟩ := hiff.mp hending
  exact ⟨hending, e, m, hfailed, hreport e m hending hfailed⟩

end CommandLine

end LoxLang
