/-
Programs that are fed to a machine piece by piece.

Source texts that are run one after the other on a machine do the same as all of them joined by line
breaks.  A machine keeps nothing between two runs but its scopes and what has been written, so that
a run of the joined statements goes on where the run of a piece has ended
(`executeFrom_append`).

* `feed` — runs source texts up to the first one that does not end well;
* `feed_like` — by induction on the texts that are left;
* `fed_like_whole` — both runs end alike, where the lines of errors are moved by those of the texts
  before.
-/
import LoxLang.Proofs.Machine.Parallel
import LoxLang.Proofs.Reader.Joining

namespace LoxLang

variable {settings : Settings} {sources : List String}

/-- Runs source texts one after the other, up to the first one that does not end well.  `last` is
the result of the text before. -/
def feed (settings : Settings) : List String → Completion → Effect Completion
  | [], last => return last
  | s :: rest, _ => do
    let r ← runSource settings s
    if r.status = .ok then feed settings rest r else return r

/-- The number of lines of some texts. -/
def linesOf : List String → Nat
  | [] => 0
  | s :: rest => lineCount s + linesOf rest

theorem linesOf_concat (sources : List String) (s : String) :
    linesOf (sources ++ [s]) = linesOf sources + lineCount s := by
  induction sources with
  | nil => exact Nat.add_comm _ _
  | cons t rest ih => rw [List.cons_append, linesOf, linesOf, ih, Nat.add_assoc]

/-- The tokens of source texts, each taken for the one that is further down by the lines of the texts
before. -/
def Likeness.joined (sources : List String) : Likeness where
  tokens t u := ∃ before s after, sources = before ++ s :: after ∧ t ∈ tokensOf s ∧
    u = t.down (linesOf before)
  sameText := by
    rintro t _ ⟨before, s, after, -, -, rfl⟩
    exact ⟨rfl, rfl, rfl, rfl⟩

/-! ### Statements one after the other -/

theorem Effect.bind_pure {α : Type} (x : Effect α) : x >>= pure = x := by
  funext m
  dsimp only [bind]
  cases x m with
  | done a m => rfl
  | stopped why m => rfl

/-- Statements are executed up to the first runtime error, and the ones after them only if there is
none. -/
theorem executeFrom_append (execute : Node → Effect Value) (es fs : List Node) (v : Value) :
    executeFrom execute (es ++ fs) v = executeFrom execute es v >>= fun x =>
      match x.2 with
      | none => executeFrom execute fs x.1
      | some _ => pure x := by
  funext m
  induction es generalizing v m with
  | nil => rfl
  | cons e es ih =>
    simp only [List.cons_append, executeFrom, bind]
    generalize execute e m = o
    rcases o with ⟨a, n⟩ | ⟨why, n⟩
    · exact ih a n
    · cases why <;> rfl

/-! ### Piece by piece -/

/-- The results of a run and of the statements in it that have been executed: there is no syntax
error, and if there is a runtime error, there is one on the other side. -/
def Agrees (L : Likeness) (r : Completion) (x : Value × Option RuntimeError) : Prop :=
  r.syntaxErrors = [] ∧ Option.Rel (RuntimeError.Like L) r.runtimeError x.2

theorem runSource_like_executeFrom {L : Likeness} {s : String} {fs : List Node} (v : Value)
    (hok : (Program.ofSource s).ok) (hs : Node.AllLike L (Program.ofSource s).statements fs) :
    Effect.Like L (Agrees L) (runSource settings s)
      (executeFrom (executeUpTo settings settings.patience) fs v) := by
  -- Nothing is done before the statements but to write lines, nor after them.
  have hright := Effect.bind_pure (executeFrom (executeUpTo settings settings.patience) fs v)
  rw [← hright, runSource, runProgram, if_pos hok]
  refine .told_left (reportAll_tells _) (.told_left (.trace _ _) ?_)
  refine .bind (executeFrom_like (V := fun _ _ => True) (executeUpTo_like L settings _) hs
    (fun _ _ _ => trivial) trivial) fun x y hxy => ?_
  exact .of_tells (finishRun_tells settings x) (.pure y) ⟨rfl, hxy.2⟩

/-- What is fed to the machine does the same as the statements of all texts that are left. -/
theorem feed_like (before after : List String) (hsources : sources = before ++ after)
    (hok : ∀ s ∈ after, (Program.ofSource s).ok) (r : Completion) (v : Value)
    (hr : r.syntaxErrors = []) (hnone : r.runtimeError = none) :
    Effect.Like (.joined sources) (Agrees (.joined sources)) (feed settings after r)
      (executeFrom (executeUpTo settings settings.patience)
        (statementsBelow (linesOf before) after) v) := by
  induction after generalizing before r v with
  | nil =>
    refine .pure ⟨hr, ?_⟩
    rw [hnone]
    exact .none
  | cons s after ih =>
    obtain ⟨hs, hafter⟩ := List.forall_mem_cons.mp hok
    have htokens : ∀ t u, (Likeness.down (linesOf before) (tokensOf s)).tokens t u →
        (Likeness.joined sources).tokens t u := by
      rintro t _ ⟨ht, rfl⟩
      exact ⟨before, s, after, hsources, ht, rfl⟩
    have hstatements : Node.AllLike (.joined sources) (Program.ofSource s).statements
        ((Program.ofSource s).statements.map (Node.down (linesOf before))) := by
      rw [Program.ofSource, ← Program.statements_down]
      exact (Program.ofTokens_down _ (tokensOf s)).statements.imp fun _ _ h => h.mono htokens
    have hmore : sources = before ++ [s] ++ after := by
      rw [hsources, List.append_assoc]
      rfl
    have hrest := ih (before ++ [s]) hmore hafter
    have happend := executeFrom_append (executeUpTo settings settings.patience)
      ((Program.ofSource s).statements.map (Node.down (linesOf before)))
      (statementsBelow (linesOf before + lineCount s) after) v
    rw [statementsBelow, happend, ← linesOf_concat]
    refine .bind (runSource_like_executeFrom v hs hstatements) fun r x hrx => ?_
    obtain ⟨errors, error, value⟩ := r
    obtain ⟨value', error'⟩ := x
    obtain ⟨rfl, herror⟩ : errors = [] ∧ Option.Rel _ error error' := hrx
    -- The run of the piece has ended with a runtime error if and only if its statements have.
    cases herror with
    | none => exact hrest ⟨[], none, value⟩ value' rfl rfl
    | some herror => exact .pure ⟨rfl, .some herror⟩

/-! ### Whole texts -/

/-- An error of the same class and with the same message, of which the line is further down by the
lines of the texts before the one that the blamed token comes from. -/
def RuntimeError.MovedDown (sources : List String) (e f : RuntimeError) : Prop :=
  e.diagnostic.sort = f.diagnostic.sort ∧ e.diagnostic.message = f.diagnostic.message ∧
    ∃ before s after t, sources = before ++ s :: after ∧ t ∈ tokensOf s ∧
      e.diagnostic.mark = t.mark ∧ f.diagnostic.mark = (t.down (linesOf before)).mark

/-- Two machines that have printed the same and bind the same global names to the same values, but
for the places in the declarations of functions.  This goes for all scopes, so that functions also
close over the same. -/
structure Machine.SameGlobals (sources : List String) (m n : Machine) : Prop where
  printed : m.printed = n.printed
  globals (k : Key) : SameAnswer (Value.Like (.joined sources)) (m.arena.get Arena.globals k)
    (n.arena.get Arena.globals k)
  scopes : m.arena.Like (Value.Like (.joined sources)) n.arena

/-- Runs that have printed the same, leave the same global bindings and end with the same status and
the same error, which is moved down.  Or runs that were both broken off for the same reason. -/
inductive SameEnd (sources : List String) : Outcome Completion → Outcome Completion → Prop where
  | done {r r' : Completion} {m m' : Machine} (globals : m.SameGlobals sources m')
      (status : r.status = r'.status)
      (error : Option.Rel (RuntimeError.MovedDown sources) r.runtimeError r'.runtimeError) :
      SameEnd sources (.done r m) (.done r' m')
  | stopped {why why' : Stop} {m m' : Machine} (globals : m.SameGlobals sources m')
      (reason : why.Like (.joined sources) why') :
      SameEnd sources (.stopped why m) (.stopped why' m')

theorem Machine.Like.sameGlobals {m n : Machine} (h : m.Like (.joined sources) n) :
    m.SameGlobals sources n where
  printed := h.printed
  globals k := h.arena.get Arena.globals k
  scopes := h.arena

theorem RuntimeError.Like.movedDown {e f : RuntimeError} (h : e.Like (.joined sources) f) :
    e.MovedDown sources f := by
  obtain ⟨t, _, ⟨before, s, after, hsources, ht, rfl⟩, hmark, hmark'⟩ := h.mark
  refine ⟨h.sameWords.1, h.sameWords.2, before, s, after, t, hsources, ht, ?_, ?_⟩
  · rw [diagnostic_mark, hmark]
  · rw [diagnostic_mark, hmark']

/-- The result of a run without syntax errors corresponds to one that has come of pieces. -/
def SameResult (L : Likeness) (r r' : Completion) : Prop :=
  r.syntaxErrors = [] ∧ r'.syntaxErrors = [] ∧
    Option.Rel (RuntimeError.Like L) r.runtimeError r'.runtimeError

theorem SameEnd.of_like {x y : Outcome Completion}
    (h : x.Like (.joined sources) (SameResult (.joined sources)) y) : SameEnd sources x y := by
  cases h with
  | @done _ r r' _ _ _ hm hr =>
    obtain ⟨errors, error, value⟩ := r
    obtain ⟨errors', error', value'⟩ := r'
    obtain ⟨rfl, rfl, herror⟩ : errors = [] ∧ errors' = [] ∧ Option.Rel _ error error' := hr
    cases herror with
    | none => exact .done hm.sameGlobals rfl .none
    | some h => exact .done hm.sameGlobals rfl (.some h.movedDown)
  | stopped _ hm hwhy => exact .stopped hm.sameGlobals hwhy

theorem feed_like_whole (hok : ∀ s ∈ sources, (Program.ofSource s).ok) :
    Effect.Like (.joined sources) (SameResult (.joined sources))
      (feed settings sources ⟨[], none, .nil⟩)
      (runSource settings ("\n".intercalate sources)) := by
  have hwhole : (⟨statementsBelow 0 sources, [], []⟩ : Program).ok := rfl
  rw [← Effect.bind_pure (feed settings sources _), runSource, Program.ofSource_joined hok,
    runProgram, if_pos hwhole]
  refine .told_right (reportAll_tells _) (.told_right (.trace _ _) ?_)
  refine .bind (feed_like [] sources rfl hok _ .nil rfl rfl) fun r x hrx => ?_
  exact .of_tells (.pure r) (finishRun_tells settings x) ⟨hrx.1, rfl, hrx.2⟩

/-- Feeding a program piece by piece equals running it whole.  Source texts that have no syntax
errors are, when they are joined by line breaks, a text without syntax errors, of which the statements
are theirs in order, each below the lines of the texts before.  Running them one after the other, up
to the first runtime error, prints the same and leaves the same global bindings as running the joined
text, and ends with the same status and error, of which the line is moved down in the same way. -/
theorem pieces_run_like_whole (settings : Settings) {sources : List String}
    (hok : ∀ s ∈ sources, (Program.ofSource s).ok) :
    Program.ofSource ("\n".intercalate sources) = ⟨statementsBelow 0 sources, [], []⟩ ∧
      SameEnd sources (feed settings sources ⟨[], none, .nil⟩ .initial)
        (runSource settings ("\n".intercalate sources) .initial) :=
  ⟨Program.ofSource_joined hok, .of_like ((feed_like_whole hok).apply Machine.like_initial)⟩

/-- A function of the second text fails when it is called in the third one. -/
theorem pieces_run_like_whole_of_call :
    let sources := ["print \"a\";", "fun f() \x7b\nreturn b;\n\x7d", "f();"]
    (∀ s ∈ sources, (Program.ofSource s).ok) ∧
      Program.ofSource ("\n".intercalate sources) = ⟨statementsBelow 0 sources, [], []⟩ ∧
      SameEnd sources (feed (.tracing 0) sources ⟨[], none, .nil⟩ .initial)
        (runSource (.tracing 0) ("\n".intercalate sources) .initial) := by
  intro sources
  have hok : ∀ s ∈ sources, (Program.ofSource s).ok := by decide +kernel
  exact ⟨hok, pieces_run_like_whole (.tracing 0) hok⟩

end LoxLang
