/-
Running programs.

`run` executes the statements of a program in order and stops at the first runtime error,
which is reported and becomes part of the result.  `runSource` runs a source text: if it
has syntax errors, these are the result and nothing is executed.  A machine can run any
number of programs, one after the other; they share the global scope.
-/
import LoxLang.Machine.Evaluate
import LoxLang.Program

namespace LoxLang

/-- What comes of a run.  `value` is the value of the last statement executed, if that was
an expression statement, and nil otherwise. -/
structure Completion where
  syntaxErrors : List SyntaxError
  runtimeError : Option RuntimeError
  value : Value

/-- How a run ended. -/
inductive Status where
  | ok
  | parseError
  | runtimeError
deriving DecidableEq, Repr

/-- The name of a status in a trace. -/
def Status.name : Status → String
  | ok => "ok"
  | parseError => "parse_error"
  | runtimeError => "runtime_error"

/-- How the run with this result ended. -/
def Completion.status (r : Completion) : Status :=
  if !r.syntaxErrors.isEmpty then .parseError
  else if r.runtimeError.isSome then .runtimeError
  else .ok

open Effect

/-- Executes statements until one has a runtime error.  `last` is the value of the
statement before. -/
def executeFrom (execute : Node → Effect Value) :
    List Node → Value → Effect (Value × Option RuntimeError)
  | [], last => fun m => .done (last, none) m
  | statement :: rest, last => fun m =>
    match execute statement m with
    | .done v m => executeFrom execute rest v m
    | .stopped (.failed e) m => .done (last, some e) m
    | .stopped why m => .stopped why m

/-- Runs the statements of a program. -/
def run (settings : Settings) (statements : List Node) : Effect Completion := do
  trace settings.level ("run " ++ toString statements.length ++ " statement(s)")
  let (value, error) ←
    executeFrom (executeUpTo settings settings.patience) statements .nil
  if let some e := error then
    trace settings.level ("runtime error: " ++ e.report)
    report e.report
  let result : Completion := ⟨[], error, value⟩
  trace settings.level ("run finished: " ++ result.status.name)
  return result

/-- Runs a tree, which has to be a list of statements. -/
def runTree (settings : Settings) : Node → Effect Completion
  | .many statements => run settings statements
  | _ => stop (.broken .program)

/-- Writes the lines for some syntax errors. -/
def reportAll : List SyntaxError → Effect Unit
  | [] => return ()
  | e :: rest => do
    report e.report
    reportAll rest

/-- Runs a program, unless it has syntax errors. -/
def runProgram (settings : Settings) (p : Program) : Effect Completion := do
  reportAll p.heard
  if p.ok then run settings p.statements
  else return ⟨p.errors, none, .nil⟩

/-- Runs a source text. -/
def runSource (settings : Settings) (source : String) : Effect Completion :=
  runProgram settings (Program.ofSource source)

/-- The lines of a text, each with a line break after it. -/
def unlines (lines : Array String) : String :=
  lines.foldl (fun text line => text ++ line ++ "\n") ""

end LoxLang
