/-
What a variable is looked up by.

In a program read from source text every name is a text.  A tree that comes from a JSON
text may name a variable by any value: two names are then the same when the values are
equal, and numbers and booleans are compared as numbers.  A list or an object names
nothing.
-/
import LoxLang.Json.Basic

namespace LoxLang

/-- What a variable is looked up by. -/
inductive Key where
  | text (s : String)
  | nothing
  /-- A whole number, or a boolean as zero or one. -/
  | whole (i : Int)
  /-- A double that is no whole number. -/
  | double (x : Float)
deriving DecidableEq, Repr

/-- The whole number that a double is equal to, if there is one. -/
def whole? (x : Float) : Option Int :=
  if infinityBits ≤ magnitude x then none
  else
    let d := Decimal.exact (magnitude x)
    let unit := Nat.pow 10 (-d.exponent).toNat
    if d.digits % unit = 0 then
      let n : Int := (d.digits / unit * Nat.pow 10 d.exponent.toNat : Nat)
      some (if isNegative x then -n else n)
    else none

/-- The key for a name, unless it is a list or an object. -/
def Key.ofName? : Json → Option Key
  | .null => some .nothing
  | .bool b => some (.whole (if b then 1 else 0))
  | .integer i => some (.whole i)
  | .number x => some (((whole? x).map .whole).getD (.double x))
  | .text s => some (.text s)
  | .array _ => none
  | .object _ => none

end LoxLang
