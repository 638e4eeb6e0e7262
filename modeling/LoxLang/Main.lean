/-
The command line.

Reads the arguments, the file that they name and, where it is asked for, the prompt, and
writes what `CommandLine.answer` or `Prompt.step` say.  At the prompt every line is answered
before the next one is read.
-/
import LoxLang.CommandLine.Answer

namespace LoxLang.Main

open CommandLine

/-- The file that a request reads. -/
def fileOf : Request → Option String
  | .prompt _ => none
  | .script _ path => some (cleanPath path)
  | .tree _ path => some (cleanPath path)
  | .emitTree path => some (cleanPath path)

/-- The file that a request reads, if it is there. -/
def readFiles (request : Request) : IO Files := do
  match fileOf request with
  | none => return []
  | some path =>
    try
      return [(path, ← IO.FS.readBinFile path)]
    catch _ => return []

/-- What is written when the command cannot go on, and nothing otherwise. -/
def complaint : Ending → String
  | .status _ | .finished => ""
  | .directory => "Error: the file is a directory\n"
  | .notText => "Error: the file is not UTF-8\n"
  | .notJson => "Error: the file is not JSON\n"
  | .notATree _ => "Error: the file holds no syntax tree\n"
  | .stopped _ => "Error: the syntax tree makes no sense\n"

/-- The exit status of an ending. -/
def exitCode : Ending → UInt32
  | .status code => code.toUInt32
  | .finished => 0
  | _ => 1

/-- Writes an answer. -/
def deliver (a : Answer) : IO UInt32 := do
  for (name, content) in a.files do
    IO.FS.writeFile name content
  IO.print a.out
  IO.eprint (a.err ++ complaint a.ending)
  return exitCode a.ending

/-- Answers lines at the prompt until one of them ends the session. -/
partial def converse (settings : Settings) (m : Machine) : IO UInt32 := do
  IO.print Prompt.ask
  (← IO.getStdout).flush
  let line ← (← IO.getStdin).getLine
  let line := if line.isEmpty then "EOF" else line
  let finish (m : Machine) : IO Unit := do
    IO.print (unlines m.printed)
    IO.eprint (unlines m.reported)
    for (name, content) in traceFiles settings.level m do
      IO.FS.writeFile name content
  match Prompt.step settings line { m with printed := #[], reported := #[] } with
  | .done ended m =>
    finish m
    if ended then return 0 else converse settings m
  | .stopped why m =>
    finish m
    IO.eprint (complaint (.stopped why))
    return 1

/-- Does what the arguments ask for. -/
def run (arguments : List String) : IO UInt32 := do
  match requestOf arguments with
  | .ok (.prompt level) =>
    IO.println Prompt.intro
    converse (.tracing level) .initial
  | .ok request => deliver (answer (← readFiles request) "" request)
  | .error _ => deliver (answerTo arguments [] "")

end LoxLang.Main

/-- Runs the command. -/
def main (arguments : List String) : IO UInt32 :=
  LoxLang.Main.run arguments
