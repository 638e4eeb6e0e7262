/-
Values of a running program.

A value is nil, a boolean, a number, a string or a function.  A literal that comes from a
JSON tree may also be a whole number, a list or an object; these are carried about and
shown, but no operator takes them.
-/
import LoxLang.Tree.Basic

namespace LoxLang

/-- The place of a scope among all scopes. -/
abbrev Handle := Nat

/-- A function with the scope it was declared in.  Two functions are the same one when they
have the same `id`. -/
structure Function where
  id : Nat
  name : Mark
  params : List Mark
  body : List Node
  closure : Handle
deriving Inhabited

/-- The number of arguments a function takes. -/
def Function.arity (f : Function) : Nat := f.params.length

/-- A value. -/
inductive Value where
  | nil
  | bool (b : Bool)
  | number (x : Float)
  | text (s : String)
  | function (f : Function)
  | integer (i : Int)
  | list (items : List Json)
  | record (fields : List (String × Json))
deriving Inhabited

namespace Value

/-- The value of a literal. -/
def ofJson : Json → Value
  | .null => nil
  | .bool b => bool b
  | .number x => number x
  | .text s => text s
  | .integer i => integer i
  | .array items => list items
  | .object fields => record fields

/-- Whether a condition with this value holds: only nil and false do not. -/
def isTruthy : Value → Bool
  | nil => false
  | bool b => b
  | _ => true

/-- Whether the value is a number. -/
def isNumber : Value → Bool
  | number _ => true
  | _ => false

/-- Whether two values are equal: they are of one type, numbers compare as numbers do, and
a function is equal only to itself. -/
def equal : Value → Value → Bool
  | nil, nil => true
  | bool a, bool b => a == b
  | number a, number b => a == b
  | text a, text b => a == b
  | function f, function g => f.id == g.id
  | integer a, integer b => a == b
  | list a, list b => a == b
  | record a, record b => a == b
  | _, _ => false

/-- The name of the type of a value. -/
def typeName : Value → String
  | nil => "nil"
  | bool _ => "boolean"
  | number _ => "number"
  | text _ => "string"
  | function _ => "function"
  | integer _ => "int"
  | list _ => "list"
  | record _ => "dict"

/-- The text that is printed for a value. -/
def display : Value → String
  | nil => "nil"
  | bool b => if b then "true" else "false"
  | number x => positionalText x
  | text s => s
  | function f => "<fn " ++ f.name.lexeme.shown ++ ">"
  | integer i => toString i
  | list items => (Json.array items).shown
  | record fields => (Json.object fields).shown

end Value

end LoxLang
