/-
What the command does.

`answer` says for a request, the files it can read and the standard input what is written,
to which files, and how the command ends.  It ends with status 65 when the script has
syntax errors, with 70 when it stops on a runtime error and with 66 when the file is not
there.
-/
import LoxLang.CommandLine.Arguments
import LoxLang.Json.Printer
import LoxLang.Json.Reader
import LoxLang.Prompt
import LoxLang.Tree.Json

namespace LoxLang.CommandLine

/-- How the command ends. -/
inductive Ending where
  | status (code : Nat)
  /-- There is nothing more to do, and no status to give. -/
  | finished
  /-- The file is a directory. -/
  | directory
  /-- The file is not UTF-8. -/
  | notText
  | notJson
  | notATree (fault : LoadFault)
  /-- The machine stopped for another reason than a runtime error. -/
  | stopped (why : Stop)

/-- What the command writes, and how it ends. -/
structure Answer where
  ending : Ending
  out : String
  err : String
  files : List (String × String)

/-- The files that can be read, by name. -/
abbrev Files := List (String × ByteArray)

/-- The status for a run. -/
def statusOf (r : Completion) : Nat :=
  match r.status with
  | .parseError => 65
  | .runtimeError => 70
  | .ok => 0

/-- The parts of a path that say something. -/
def pathParts (path : String) : List String :=
  ((path.toList.splitOn '/').map String.ofList).filter fun part => part ≠ "" ∧ part ≠ "."

/-- How a path begins that does not start in the working directory.  Two slashes, and no
more, are a beginning of their own. -/
def pathRoot (path : String) : String :=
  match (path.toList.takeWhile (· = '/')).length with
  | 0 => ""
  | 2 => "//"
  | _ => "/"

/-- A path without the parts that say nothing. -/
def cleanPath (path : String) : String :=
  let cleaned := pathRoot path ++ "/".intercalate (pathParts path)
  if cleaned = "" then "." else cleaned

/-- Whether a path can name nothing but the working directory or one above it. -/
def isDirectory (path : String) : Bool :=
  (pathParts path).all (· = "..")

/-- A text in which every line ends with a line feed only. -/
def unifyLines : List Char → List Char
  | '\r' :: '\n' :: rest => '\n' :: unifyLines rest
  | '\r' :: rest => '\n' :: unifyLines rest
  | c :: rest => c :: unifyLines rest
  | [] => []

/-- The text that a file holds. -/
def decode (bytes : ByteArray) : Option String :=
  (String.fromUTF8? bytes).map fun s => String.ofList (unifyLines s.toList)

/-- An answer that writes nothing to the output. -/
def failure (ending : Ending) (err : String) : Answer := ⟨ending, "", err, []⟩

/-- The answer when a file is not there. -/
def notFound (path : String) : Answer :=
  failure (.status 66) ("Error: file " ++ path ++ " not found\n")

/-- Goes on with the text of a file. -/
def withText (files : Files) (path : String) (k : String → Answer) : Answer :=
  if isDirectory path then failure .directory ""
  else match files.lookup path with
  | none => notFound path
  | some bytes =>
    match decode bytes with
    | none => failure .notText ""
    | some text => k text

/-- The file that the trace is written to. -/
def traceFile : String := "debug.txt"

/-- What a machine has written to the trace. -/
def traceFiles (level : Nat) (m : Machine) : List (String × String) :=
  if level = 0 then [] else [(traceFile, unlines m.traced)]

/-- The answer of a run on a new machine. -/
def answerRun (level : Nat) (x : Effect Completion) : Answer :=
  match x .initial with
  | .done r m =>
    ⟨.status (statusOf r), unlines m.printed, unlines m.reported, traceFiles level m⟩
  | .stopped why m =>
    ⟨.stopped why, unlines m.printed, unlines m.reported, traceFiles level m⟩

/-- The answer of a session at the prompt. -/
def answerPrompt (level : Nat) (input : String) : Answer :=
  match Prompt.session (.tracing level) input .initial with
  | .done shown m => ⟨.finished, shown, unlines m.reported, traceFiles level m⟩
  | .stopped why m =>
    ⟨.stopped why, unlines m.printed, unlines m.reported, traceFiles level m⟩

/-- The name of the file that a script's tree is written to. -/
def treePath (path : String) : String := path ++ ".ast.json"

/-- Writes the tree of a script, unless it has syntax errors. -/
def answerEmit (path source : String) : Answer :=
  let p := Program.ofSource source
  let err := unlines (p.heard.map SyntaxError.report).toArray
  if p.ok then
    ⟨.finished, treePath path ++ "\n", err,
      [(treePath path, (Node.many p.statements).toJson.indented)]⟩
  else failure (.status 65) err

/-- Runs a tree that is written as JSON. -/
def answerTree (level : Nat) (text : String) : Answer :=
  match Json.ofText? text with
  | none => failure .notJson ""
  | some j =>
    match Node.ofJson j with
    | .error fault => failure (.notATree fault) ""
    | .ok node => answerRun level (runTree (.tracing level) node)

/-- Runs a script. -/
def answerScript (level : Nat) (source : String) : Answer :=
  answerRun level (runSource (.tracing level) source)

/-- What is done for a request. -/
def answer (files : Files) (input : String) : Request → Answer
  | .prompt level => answerPrompt level input
  | .script level path => withText files (cleanPath path) (answerScript level)
  | .tree level path => withText files (cleanPath path) (answerTree level)
  | .emitTree path => withText files (cleanPath path) (answerEmit (cleanPath path))

/-- What the command says about its arguments. -/
def usage : String :=
  "usage: lox [-h] [-v] [--emit-ast LOX_FILE | --ast AST_JSON_FILE] [script]\n"

/-- What the command says when it is asked for help. -/
def helpText : String :=
  usage ++ "\n"
    ++ "Lox language interpreter\n\n"
    ++ "positional arguments:\n"
    ++ "  script                Lox script to execute; omit for a prompt\n\n"
    ++ "options:\n"
    ++ "  -h, --help            show this help message and exit\n"
    ++ "  -v                    increase debug verbosity (can be repeated)\n"
    ++ "  --emit-ast LOX_FILE   emit AST JSON for the given .lox file\n"
    ++ "  --ast AST_JSON_FILE   execute AST from a JSON file\n"

/-- What the command does with its arguments. -/
def answerTo (arguments : List String) (files : Files) (input : String) : Answer :=
  match requestOf arguments with
  | .ok request => answer files input request
  | .error .help => ⟨.status 0, helpText, "", []⟩
  | .error .usage => failure (.status 2) usage

end LoxLang.CommandLine
