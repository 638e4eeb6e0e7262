/-
A cursor over tokens.

A `Cursor` shows the token it stands at and the one before, and moves forward one token at
a time.  At the token that ends the source it stays where it is.  `index` counts the moves,
so it is the place of the current token in the list that the cursor was made for.
-/
import LoxLang.Token.Basic

namespace LoxLang

/-- A place in a list of tokens that is read from left to right. -/
structure Cursor where
  previous : Option Token
  current : Token
  upcoming : List Token
  index : Nat

namespace Cursor

/-- A cursor at the first of some tokens. -/
def ofTokens? : List Token → Option Cursor
  | [] => none
  | t :: ts => some ⟨none, t, ts, 0⟩

/-- Whether the cursor stands at the token that ends the source. -/
def isAtEnd (c : Cursor) : Bool :=
  c.current.kind == .endOfFile

/-- Whether the current token is of one of some kinds. -/
def check (c : Cursor) (kinds : List Kind) : Bool :=
  kinds.contains c.current.kind

/-- The cursor one token further.  Where no token follows, only `previous` changes. -/
def next (c : Cursor) : Cursor :=
  if c.isAtEnd then c
  else match c.upcoming with
    | [] => { c with previous := some c.current }
    | t :: ts => ⟨some c.current, t, ts, c.index + 1⟩

/-- The token that a move passes, or none if the tokens stop without the one that ends a
source. -/
def passed? (c : Cursor) : Option Token :=
  if !c.isAtEnd && c.upcoming.isEmpty then none else some c.current

/-- The number of moves that are left. -/
def remaining (c : Cursor) : Nat :=
  if c.isAtEnd then 0 else c.upcoming.length

end Cursor

end LoxLang
