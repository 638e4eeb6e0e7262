/-
JSON texts.

`Json.indented` writes each member of a list or an object on a line of its own, two more
spaces in than the line that opens it; `Json.compact` writes everything on one line.
Both come from one function `render`, which is told what to put before a member.
-/
import LoxLang.Json.Basic

namespace LoxLang.Json

/-- What stands for a character between the quotes of a JSON text. -/
def escaped (c : Char) : List Char :=
  if c = '"' ∨ c = '\\' then ['\\', c]
  else if c = '\n' then ['\\', 'n']
  else if c = '\r' then ['\\', 'r']
  else if c = '\t' then ['\\', 't']
  else if c = '\x08' then ['\\', 'b']
  else if c = '\x0c' then ['\\', 'f']
  else if c.toNat < 0x20 then '\\' :: 'u' :: hexadecimal 4 c.toNat
  else [c]

/-- A text between quotes. -/
def quotedText (s : String) : List Char :=
  '"' :: (s.toList.flatMap escaped ++ ['"'])

/-- Where the members of lists and objects stand. -/
inductive Layout where
  | oneLine
  | lines
deriving DecidableEq, Repr

/-- What stands before a member nested `depth` deep, and before the closing bracket of a
list or an object nested one less. -/
def Layout.before (layout : Layout) (depth : Nat) : List Char :=
  match layout with
  | .oneLine => []
  | .lines => '\n' :: List.replicate (2 * depth) ' '

/-- What stands between two members, before the line of the second one begins. -/
def Layout.separator : Layout → List Char
  | .oneLine => [',', ' ']
  | .lines => [',']

mutual

/-- The text of a value that stands `depth` deep. -/
def render (layout : Layout) (depth : Nat) : Json → List Char
  | .null => "null".toList
  | .bool b => (if b then "true" else "false").toList
  | .integer i => (toString i).toList
  | .number x => (generalText "NaN" "Infinity" x).toList
  | .text s => quotedText s
  | .array [] => ['[', ']']
  | .array (j :: js) =>
    '[' :: (layout.before (depth + 1) ++ (render layout (depth + 1) j
      ++ (renderItems layout (depth + 1) js ++ (layout.before depth ++ [']']))))
  | .object [] => ['\x7b', '\x7d']
  | .object ((n, j) :: rest) =>
    '\x7b' :: (layout.before (depth + 1) ++ (quotedText n ++ (':' :: ' ' ::
      (render layout (depth + 1) j
        ++ (renderFields layout (depth + 1) rest ++ (layout.before depth ++ ['\x7d']))))))

/-- The members of a list after the first one, each with what separates it from the one
before. -/
def renderItems (layout : Layout) (depth : Nat) : List Json → List Char
  | [] => []
  | j :: js =>
    layout.separator ++ (layout.before depth ++ (render layout depth j
      ++ renderItems layout depth js))

/-- The fields of an object after the first one. -/
def renderFields (layout : Layout) (depth : Nat) : List (String × Json) → List Char
  | [] => []
  | (n, j) :: rest =>
    layout.separator ++ (layout.before depth ++ (quotedText n ++ (':' :: ' ' ::
      (render layout depth j ++ renderFields layout depth rest))))

end

/-- The value on one line. -/
def compact (j : Json) : String :=
  String.ofList (render .oneLine 0 j)

/-- The value with each member on a line of its own. -/
def indented (j : Json) : String :=
  String.ofList (render .lines 0 j)

end LoxLang.Json
