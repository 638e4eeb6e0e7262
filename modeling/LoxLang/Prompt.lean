/-
The prompt.

Each line typed at the prompt is a command word or a program of its own; all programs run
on one machine.  A line that has syntax errors or stops on a runtime error is reported and
does not end the session.  After a line whose last statement is an expression the value of
that expression is shown.
-/
import LoxLang.Machine.Run

namespace LoxLang.Prompt

open Effect

/-- What a line asks for. -/
inductive Command where
  | nothing
  | exit
  /-- The input has come to its end. -/
  | endOfInput
  | help (topic : String)
  | program (source : String)
deriving DecidableEq, Repr

/-- Whether a character can be part of a command word. -/
def isCommandPart (c : Char) : Bool := c.isAlphanum || c == '_'

/-- What a line asks for, given the line without white space at its ends.  A question mark
at the beginning asks for help; what follows a command word is its topic, and counts only
for `help`. -/
def commandOf (line : List Char) : Command :=
  match line with
  | [] => .nothing
  | '?' :: topic => .help (String.ofList (strip topic))
  | _ =>
    let word := line.takeWhile isCommandPart
    if word = "exit".toList then .exit
    else if word = "EOF".toList then .endOfInput
    else if word = "help".toList then
      .help (String.ofList (strip (line.dropWhile isCommandPart)))
    else .program (String.ofList line)

/-- The lines that are shown for a request for help. -/
def helpOn (topic : String) : List String :=
  if topic = "" then
    ["", "Documented commands (type help <topic>):",
     "========================================", "EOF  exit  help", ""]
  else if topic = "exit" ∨ topic = "EOF" then ["Exits interpreter."]
  else if topic = "help" then
    ["List available commands with \"help\" or detailed help with \"help cmd\"."]
  else ["*** No help on " ++ topic]

/-- Whether a statement is an expression. -/
def isExpression : Node → Bool
  | .evaluate _ => true
  | _ => false

/-- Whether the value of the last statement is shown after a run. -/
def echoes (p : Program) (result : Completion) : Bool :=
  result.status = .ok && p.statements.getLast?.any isExpression

/-- Runs a line as a program and shows its value. -/
def runLine (settings : Settings) (source : String) : Effect Unit := do
  let p := Program.ofSource source
  let result ← runProgram settings p
  if echoes p result then print result.value.display

/-- Does what a line asks for; the result says whether the session is over. -/
def step (settings : Settings) (line : String) : Effect Bool := do
  match commandOf (strip line.toList) with
  | .nothing => return false
  | .exit => return true
  | .endOfInput =>
    print ""
    return true
  | .help topic =>
    (helpOn topic).forM print
    return false
  | .program source =>
    runLine settings source
    return false

/-- The text before the first line. -/
def intro : String := "Lox interpreter. Type 'exit' or press Ctrl-D to leave."

/-- The text that asks for a line. -/
def ask : String := "> "

/-- A line without the carriage return at its end. -/
def dropReturn (line : String) : String :=
  if line.toList.getLast? = some '\r' then String.ofList line.toList.dropLast else line

/-- The lines of an input, ended by the word that stands for its end. -/
def inputLines (input : String) : List String :=
  let lines := input.splitOn "\n"
  let full := if lines.getLast? = some "" then lines.dropLast else lines
  full.map dropReturn ++ ["EOF"]

/-- Answers lines until one of them ends the session, and gives all that is shown. -/
def converse (settings : Settings) : List String → String → Effect String
  | [], shown => return shown
  | line :: rest, shown => do
    modify fun m => { m with printed := #[] }
    let ended ← step settings line
    let shown := shown ++ ask ++ unlines (← gets (·.printed))
    if ended then return shown else converse settings rest shown

/-- A whole session with the given input, and all that is shown. -/
def session (settings : Settings) (input : String) : Effect String :=
  converse settings (inputLines input) (intro ++ "\n")

end LoxLang.Prompt
