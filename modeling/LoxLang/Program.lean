/-
Programs.

`Program.ofTokens` reads a list of tokens to its end.  Statements with a fault are left
out, so there is always a program; it is `ok` when no fault was found.
-/
import LoxLang.Reader.Statement
import LoxLang.Token.Scan

namespace LoxLang

/-- The statements of a program that have no fault, the syntax errors in the order in which
they were found, and those that the listener was told of. -/
structure Program where
  statements : List Node
  errors : List SyntaxError
  heard : List SyntaxError

namespace Program

/-- Whether there is no syntax error. -/
def ok (p : Program) : Bool := p.errors.isEmpty

/-- What has been read, with the given statements. -/
def ofReading (statements : List Node) (s : Reading) : Program :=
  ⟨statements, s.errors, s.heard⟩

/-- The program that a list of tokens makes. -/
def ofTokens (tokens : List Token) : Program :=
  match Cursor.ofTokens? tokens with
  | none => ⟨[], [], []⟩
  | some c => match Reader.program (.start c) with
    | .ok statements s => ofReading statements s
    | .failed s => ofReading [] s
    | .stuck => ⟨[], [], []⟩

/-- The program that a source text makes. -/
def ofSource (source : String) : Program :=
  ofTokens (tokensOf source)

end Program

end LoxLang
