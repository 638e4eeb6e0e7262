/-
A script and the tree that is written for it.

* `answerTree_indented` — the text that is written for a list of statements is run as these
  statements, with nothing lost on the way through JSON and the file;
* `emitted_tree_runs_like_script` — to write the tree of a script and to run this tree is the same
  as to run the script, and where the script has syntax errors, both say so in the same words.
-/
import LoxLang.CommandLine.Answer
import LoxLang.Proofs.CommandLine.Paths
import LoxLang.Proofs.Json.Lines
import LoxLang.Proofs.Json.RoundTrip
import LoxLang.Proofs.Machine.Leaks
import LoxLang.Proofs.Tree.Distinct
import LoxLang.Proofs.Tree.RoundTrip

namespace LoxLang.CommandLine

/-! ### The text of a file -/

theorem unifyLines_of_notMem {cs : List Char} (h : '\r' ∉ cs) : unifyLines cs = cs := by
  induction cs with
  | nil => rfl
  | cons c cs ih =>
    rw [List.mem_cons, not_or] at h
    rw [unifyLines, ih h.2]
    · rintro _ ⟨⟩
      exact absurd rfl h.1
    · rintro ⟨⟩
      exact absurd rfl h.1

/-- A text without carriage returns is read from the file that it has been written to. -/
theorem decode_toUTF8 {text : String} (h : '\r' ∉ text.toList) : decode text.toUTF8 = some text := by
  have hread : String.fromUTF8? text.toUTF8 = some text := dif_pos text.isValidUTF8
  rw [decode, hread, Option.map_some, unifyLines_of_notMem h, String.ofList_toList]

theorem decode_indented (j : Json) : decode j.indented.toUTF8 = some j.indented := by
  apply decode_toUTF8
  rw [Json.indented, String.toList_ofList]
  exact Json.notMem_render .lines 0 j

section Files

variable {files : Files} {path text : String} {bytes : ByteArray}

theorem withText_of_lookup (hpath : isDirectory path = false)
    (hfile : files.lookup path = some bytes) (htext : decode bytes = some text)
    (k : String → Answer) : withText files path k = k text := by
  rw [withText, hpath, hfile]
  simp only [htext]
  rfl

end Files

/-! ### Runs -/

section Runs

variable {source : String} {level : Nat}

/-- What is written for some statements is run as these statements. -/
theorem answerTree_indented {statements : List Node}
    (h : (Node.many statements).toJson.Distinct) (level : Nat) :
    answerTree level (Node.many statements).toJson.indented =
      answerRun level (run (.tracing level) statements) := by
  rw [answerTree, Json.indented, Json.ofText?_render .lines h]
  simp only [Node.ofJson_toJson]
  rfl

theorem answerScript_of_ok (hok : (Program.ofSource source).ok) (level : Nat) :
    answerScript level source =
      answerRun level (run (.tracing level) (Program.ofSource source).statements) := by
  rw [answerScript, runSource, Request.runProgram_of_ok hok, Program.heard_of_ok hok]
  rfl

theorem reportAll_apply (errors : List SyntaxError) (m : Machine) :
    reportAll errors m = .done ()
      { m with reported := m.reported ++ (errors.map SyntaxError.report).toArray } := by
  induction errors generalizing m with
  | nil => simp [reportAll]; rfl
  | cons e rest ih =>
    show reportAll rest { m with reported := m.reported.push e.report } = _
    rw [ih]
    simp

theorem answerRun_of_done {x : Effect Completion} {r : Completion} {m : Machine}
    (h : x .initial = .done r m) (level : Nat) : answerRun level x =
      ⟨.status (statusOf r), unlines m.printed, unlines m.reported, traceFiles level m⟩ := by
  rw [answerRun, h]

/-- Where there are syntax errors, a run writes them and ends. -/
theorem answerScript_eq_of_not_ok (hok : ¬(Program.ofSource source).ok) (level : Nat) :
    answerScript level source = ⟨.status 65, "",
      unlines ((Program.ofSource source).heard.map SyntaxError.report).toArray,
      traceFiles level .initial⟩ := by
  have hstatus : statusOf ⟨(Program.ofSource source).errors, none, .nil⟩ = 65 := by
    rw [statusOf, Completion.status, ← Program.ok, Bool.eq_false_iff.mpr hok]
    rfl
  have hreported : Machine.initial.reported = #[] := rfl
  have hrun := Effect.bind_of_done
    (reportAll_apply (Program.ofSource source).heard .initial)
    (f := fun _ => pure (Completion.mk (Program.ofSource source).errors none .nil))
  rw [answerScript, runSource, Request.runProgram_of_not_ok hok, answerRun_of_done hrun, hstatus,
    hreported, Array.empty_append]
  rfl

theorem answerScript_of_not_ok (hok : ¬(Program.ofSource source).ok) (level : Nat) :
    (answerScript level source).ending = .status 65 ∧ (answerScript level source).err =
      unlines ((Program.ofSource source).heard.map SyntaxError.report).toArray := by
  rw [answerScript_eq_of_not_ok hok]
  exact ⟨rfl, rfl⟩

theorem answerEmit_of_ok (hok : (Program.ofSource source).ok) (path : String) :
    answerEmit path source = ⟨.finished, treePath path ++ "\n", "",
      [(treePath path, (Node.many (Program.ofSource source).statements).toJson.indented)]⟩ := by
  rw [answerEmit]
  simp only [hok, if_true, Program.heard_of_ok hok]
  rfl

theorem answerEmit_of_not_ok (hok : ¬(Program.ofSource source).ok) (path : String) :
    answerEmit path source = ⟨.status 65, "",
      unlines ((Program.ofSource source).heard.map SyntaxError.report).toArray, []⟩ := by
  rw [answerEmit]
  exact if_neg hok

end Runs

/-- To write the tree of a script and to run that tree, under whichever name the file is found, is
the same as to run the script: the output, the errors, the trace and the way the command ends are
the same.  Of a script with syntax errors no tree is written, and the errors are those of a run. -/
theorem emitted_tree_runs_like_script (files : Files) (input path : String) (level : Nat)
    {bytes : ByteArray} {source : String} (hpath : isDirectory (cleanPath path) = false)
    (hfile : files.lookup (cleanPath path) = some bytes) (hsource : decode bytes = some source) :
    let emitted := answer files input (.emitTree path)
    let ran := answer files input (.script level path)
    let name := treePath (cleanPath path)
    if (Program.ofSource source).ok then
      cleanPath name = name ∧
      ∃ text, emitted = ⟨.finished, name ++ "\n", "", [(name, text)]⟩ ∧
        ∀ (later : Files) (input' path' : String), later.lookup name = some text.toUTF8 →
          cleanPath path' = name → answer later input' (.tree level path') = ran
    else emitted = ⟨.status 65, "", ran.err, []⟩ ∧ ran.ending = .status 65 := by
  intro emitted ran name
  have hemitted : emitted = answerEmit (cleanPath path) source :=
    withText_of_lookup hpath hfile hsource _
  have hran : ran = answerScript level source := withText_of_lookup hpath hfile hsource _
  split
  · rename_i hok
    have hname : isDirectory name = false := isDirectory_treePath hpath
    have hdistinct := Program.ofSource_distinct hok
    refine ⟨cleanPath_treePath hpath, _, hemitted.trans (answerEmit_of_ok hok _), ?_⟩
    intro later input' path' hlater hpath'
    rw [hran, answer, hpath', withText_of_lookup hname hlater (decode_indented _),
      answerTree_indented hdistinct, answerScript_of_ok hok]
  · rename_i hok
    obtain ⟨hending, herr⟩ := answerScript_of_not_ok hok level
    rw [hran, herr]
    exact ⟨hemitted.trans (answerEmit_of_not_ok hok _), hending⟩

/-- A tree that prints and then stops at a name that nothing has. -/
theorem emitted_tree_runs_like_script_of_error :
    let source := "print \"a\";\nprint b;"
    let name := "a.lox.ast.json"
    ∃ text, answer [("a.lox", source.toUTF8)] "" (.emitTree "./a.lox") =
        ⟨.finished, name ++ "\n", "", [(name, text)]⟩ ∧
      let ran := answer [(name, text.toUTF8)] "" (.tree 0 name)
      ran.out = "a\n" ∧ ran.err = "[line 2] RuntimeError: Undefined variable 'b'.\n" := by
  intro source name
  have hclean : cleanPath "./a.lox" = "a.lox" := by decide +kernel
  have hpath : isDirectory (cleanPath "./a.lox") = false := by decide +kernel
  have hfile : ([("a.lox", source.toUTF8)] : Files).lookup (cleanPath "./a.lox")
      = some source.toUTF8 := by
    rw [hclean]
    rfl
  have hsource : decode source.toUTF8 = some source := decode_toUTF8 (by decide +kernel)
  have hok : (Program.ofSource source).ok := by decide +kernel
  obtain ⟨-, text, hemitted, hran⟩ :=
    (if_pos hok).mp (emitted_tree_runs_like_script _ "" "./a.lox" 0 hpath hfile hsource)
  rw [hclean] at hemitted hran
  refine ⟨text, hemitted, ?_⟩
  intro ran
  have hscript : ran = answerScript 0 source :=
    (hran [(name, text.toUTF8)] "" name (List.lookup_cons_self ..) (by decide +kernel)).trans
      (withText_of_lookup hpath hfile hsource _)
  rw [hscript]
  exact ⟨by decide +kernel, by decide +kernel⟩

end LoxLang.CommandLine
