/-
The arguments of the command.

    lox [-v ...] [--emit-ast FILE | --ast FILE] [script]

A long option may be cut short as long as no other one begins in the same way, and its
value may follow an `=`.  Options of one letter may share a dash, and an `=` may stand after
the first of them: `-vvv` and `-v=vv` are the same.  After `--` every argument is a file.
The two long options with a value exclude each other; an empty value counts for that, and
for nothing else, and so does the value `--` after an `=`.
-/
import LoxLang.Text.DecimalDigit

namespace LoxLang.CommandLine

/-- The options. -/
inductive Switch where
  | verbose
  | help
  | emitTree
  | tree
deriving DecidableEq, Repr

/-- The options under their full names. -/
def switches : List (String × Switch) :=
  [("-v", .verbose), ("-h", .help), ("--help", .help), ("--emit-ast", .emitTree),
   ("--ast", .tree)]

/-- Whether an option has a value. -/
def Switch.takesValue : Switch → Bool
  | verbose | help => false
  | emitTree | tree => true

/-- What a single argument is. -/
inductive Word where
  /-- Not an option. -/
  | plain
  /-- An option with the text after its `=`. -/
  | switch (s : Switch) (value : Option String)
  /-- Some options of one letter each behind one dash. -/
  | cluster (letters : List Char)
  /-- The beginning of several options. -/
  | ambiguous
  | unknown
deriving DecidableEq, Repr

/-- The option with a full name. -/
def switch? (name : List Char) : Option Switch :=
  (switches.find? (·.1.toList = name)).map (·.2)

/-- The text before the first `=` and the text after it, if there is one. -/
def splitEqual (cs : List Char) : List Char × Option String :=
  match cs.dropWhile (· != '=') with
  | [] => (cs, none)
  | _ :: value => (cs.takeWhile (· != '='), some (String.ofList value))

/-- Whether a text is a decimal numeral, like `1` or `.5`. -/
def isNumeral (cs : List Char) : Bool :=
  match cs.dropWhile isDecimalDigit with
  | [] => !cs.isEmpty
  | '.' :: fraction => !fraction.isEmpty && fraction.all isDecimalDigit
  | _ => false

/-- Whether an argument is a negative number, like `-1` or `-.5`.  A line feed may end it. -/
def isNegativeNumber : List Char → Bool
  | '-' :: cs => isNumeral (if cs.getLast? = some '\n' then cs.dropLast else cs)
  | _ => false

/-- What an argument is that begins with a dash and is no full name of an option. -/
def abbreviation (cs : List Char) : Word :=
  let (name, value) := splitEqual cs
  let fallback :=
    if isNegativeNumber cs || cs.contains ' ' then Word.plain else Word.unknown
  match cs with
  | '-' :: '-' :: _ =>
    match switches.filter fun (full, _) => name.isPrefixOf full.toList with
    | [] => fallback
    | [(_, s)] => .switch s value
    | _ => .ambiguous
  | '-' :: c :: more =>
    if (switch? ['-', c]).isSome then .cluster (c :: more) else fallback
  | _ => fallback

/-- What the full name of an option is with the text after its `=`.  To an option of one
letter the text adds more letters. -/
def withValue (name : List Char) (s : Switch) (value : String) : Word :=
  match name with
  | ['-', c] => if value = "" then .unknown else .cluster (c :: value.toList)
  | _ => .switch s (some value)

/-- What an argument is. -/
def wordOf (argument : String) : Word :=
  let cs := argument.toList
  if cs.head? ≠ some '-' || cs.length = 1 then .plain
  else match switch? cs with
    | some s => .switch s none
    | none =>
      match splitEqual cs with
      | (name, some value) =>
        match switch? name with
        | some s => withValue name s value
        | none => abbreviation cs
      | _ => abbreviation cs

/-- What the arguments ask for. -/
structure Arguments where
  verbosity : Nat
  emitTree : Option String
  tree : Option String
  script : Option String
deriving DecidableEq, Repr

/-- What has been found so far when nothing has been read. -/
def Arguments.none : Arguments := ⟨0, .none, .none, .none⟩

/-- Why the arguments are not all read. -/
inductive Refused where
  | help
  | usage
deriving DecidableEq, Repr

/-- Sets the value of an option, unless the other one of the two is there. -/
def Arguments.setValue (a : Arguments) (s : Switch) (value : String) :
    Except Refused Arguments :=
  match s with
  | .emitTree =>
    if a.tree.isSome then .error .usage else .ok { a with emitTree := some value }
  | .tree =>
    if a.emitTree.isSome then .error .usage else .ok { a with tree := some value }
  | _ => .error .usage

/-- Sets the script, unless there is one. -/
def Arguments.setScript (a : Arguments) (path : String) : Except Refused Arguments :=
  if a.script.isSome then .error .usage else .ok { a with script := some path }

/-- Counts the options behind one dash.  All of them must be options. -/
def Arguments.addCluster (a : Arguments) (letters : List Char) : Except Refused Arguments :=
  if letters.any fun c => (switch? ['-', c]).isNone then .error .usage
  else if letters.contains 'h' then .error .help
  else .ok { a with verbosity := a.verbosity + letters.length }

/-- The value that the text after an `=` gives: an empty one, if the text is `--`. -/
def valueOf (text : String) : String :=
  if text = "--" then "" else text

/-- Reads the arguments after `--`. -/
def readFiles : List String → Arguments → Except Refused Arguments
  | [], a => if a.script.isSome then .error .usage else .ok a
  | [path], a => a.setScript path
  | _, _ => .error .usage

/-- Reads the arguments. -/
def readArguments : List String → Arguments → Except Refused Arguments
  | [], a => .ok a
  | argument :: rest, a =>
    if argument = "--" then readFiles rest a
    else match wordOf argument with
      | .plain =>
        if rest = ["--"] then a.setScript argument
        else do readArguments rest (← a.setScript argument)
      | .ambiguous | .unknown => .error .usage
      | .cluster letters => do readArguments rest (← a.addCluster letters)
      | .switch .verbose none => readArguments rest { a with verbosity := a.verbosity + 1 }
      | .switch .help none => .error .help
      | .switch s (some value) => do readArguments rest (← a.setValue s (valueOf value))
      | .switch s none =>
        match rest with
        | value :: rest =>
          if value ≠ "--" ∧ wordOf value = .plain then do
            readArguments rest (← a.setValue s value)
          else .error .usage
        | [] => .error .usage

/-- What is to be done. -/
inductive Request where
  | prompt (level : Nat)
  | script (level : Nat) (path : String)
  | tree (level : Nat) (path : String)
  | emitTree (path : String)
deriving DecidableEq, Repr

/-- A file argument that is not empty. -/
def given? (path : Option String) : Option String :=
  path.filter (· ≠ "")

/-- What the arguments ask to be done. -/
def Arguments.request (a : Arguments) : Request :=
  match given? a.emitTree, given? a.tree, given? a.script with
  | some path, _, _ => .emitTree path
  | _, some path, _ => .tree a.verbosity path
  | _, _, some path => .script a.verbosity path
  | _, _, _ => .prompt a.verbosity

/-- What a list of arguments asks to be done.  The ambiguous ones are refused before any is
read. -/
def requestOf (arguments : List String) : Except Refused Request :=
  if (arguments.takeWhile (· ≠ "--")).any (wordOf · = .ambiguous) then .error .usage
  else (readArguments arguments .none).map Arguments.request

end LoxLang.CommandLine
