/-
Readers of tokens.

A `Reader` reads tokens from a cursor and either gives a result or fails.  It fails only
after it has recorded a syntax error, so a failure carries no message: the errors are kept
in the state, which survives a failure.  A reader that was told to take at most so many
parts and found more is `stuck`; the readers of a whole program are given bounds that they
cannot reach.
-/
import LoxLang.Diagnostic
import LoxLang.Token.Cursor
import LoxLang.Tree.Basic

namespace LoxLang

/-- What a reader has read and found so far.  `errors` are the syntax errors in the order
in which they were found, `heard` those that a listener was told of, `depth` the number of
function bodies around the cursor. -/
structure Reading where
  cursor : Cursor
  errors : List SyntaxError
  heard : List SyntaxError
  depth : Nat

namespace Reading

/-- The state in which a list of tokens is read from its beginning. -/
def start (c : Cursor) : Reading := ⟨c, [], [], 0⟩

/-- A bound for what can still be read: each part of a program has at least one token. -/
def bound (s : Reading) : Nat := 2 * s.cursor.upcoming.length + 2

end Reading

/-- What comes of reading. -/
inductive Reply (α : Type) where
  | ok (result : α) (s : Reading)
  | failed (s : Reading)
  | stuck

/-- A reader with results in `α`. -/
def Reader (α : Type) : Type := Reading → Reply α

namespace Reader

variable {α β : Type}

instance : Monad Reader where
  pure a := fun s => .ok a s
  bind p f := fun s => match p s with
    | .ok a s => f a s
    | .failed s => .failed s
    | .stuck => .stuck

/-- The reader that has reached its bound. -/
def stuck : Reader α := fun _ => .stuck

/-- The current token. -/
def peek : Reader Token := fun s => .ok s.cursor.current s

/-- The index of the current token. -/
def position : Reader Nat := fun s => .ok s.cursor.index s

/-- Whether the current token ends the source. -/
def atEnd : Reader Bool := fun s => .ok s.cursor.isAtEnd s

/-- Whether the current token is of one of some kinds. -/
def check (kinds : List Kind) : Reader Bool := fun s => .ok (s.cursor.check kinds) s

/-- Moves on and gives the token that was current before. -/
def advance : Reader Token := fun s =>
  .ok s.cursor.current { s with cursor := s.cursor.next }

/-- Records a fault of the given token, which has the given index, and tells the
listener. -/
def report (t : Token) (index : Nat) (fault : SyntaxFault) : Reader Unit := fun s =>
  let e : SyntaxError := ⟨t, index, fault⟩
  .ok () { s with errors := s.errors ++ [e], heard := s.heard ++ [e] }

/-- Records a fault of the current token. -/
def reportHere (fault : SyntaxFault) : Reader Unit := fun s =>
  report s.cursor.current s.cursor.index fault s

/-- Gives up what is being read. -/
def giveUp : Reader α := fun s => .failed s

/-- Records a fault of the current token and gives up. -/
def fail (fault : SyntaxFault) : Reader α := do
  reportHere fault
  giveUp

/-- Moves past a token of the given kind; any other token is a fault. -/
def expect (kind : Kind) (fault : SyntaxFault) : Reader Token := do
  if ← check [kind] then advance else fail fault

/-- Moves past a token of the given kind, if that is the current one. -/
def accept (kind : Kind) : Reader Bool := do
  if ← check [kind] then
    let _ ← advance
    return true
  else return false

/-- Reads with a bound on the number of parts, found from what is left to read. -/
def bounded (p : Nat → Reader α) : Reader α := fun s => p s.bound s

/-- Reads parts separated by commas, at least one.  A part beyond the largest number of
arguments is read like the others, after the fault has been recorded. -/
def separated (part : Reader α) (tooMany : SyntaxFault) : Nat → Nat → Reader (List α)
  | 0, _ => stuck
  | n + 1, count => do
    if maxArguments ≤ count then reportHere tooMany
    let first ← part
    if ← accept .comma then
      let rest ← separated part tooMany n (count + 1)
      return first :: rest
    else return [first]

/-- Reads parts separated by commas, up to a closing parenthesis, which is left. -/
def listing (part : Reader α) (tooMany : SyntaxFault) : Reader (List α) := do
  if ← check [.rightParen] then return []
  else bounded fun n => separated part tooMany n 0

end Reader

end LoxLang
