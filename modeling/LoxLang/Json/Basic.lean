/-
JSON values.

A number written without point and exponent is an `integer` of any size, every other
number a double.  An object is a list of fields with different names, in the order in
which the names were first given.
-/
import LoxLang.Decimal.Notation
import LoxLang.Text.Quoted

namespace LoxLang

/-- A JSON value. -/
inductive Json where
  | null
  | bool (b : Bool)
  | integer (i : Int)
  | number (x : Float)
  | text (s : String)
  | array (items : List Json)
  | object (fields : List (String × Json))
deriving Inhabited

namespace Json

mutual

/-- Whether two values are equal, where numbers compare as numbers do: zero equals negative
zero, and the double that is no number equals nothing. -/
def equal : Json → Json → Bool
  | .null, .null => true
  | .bool a, .bool b => a == b
  | .integer a, .integer b => a == b
  | .number a, .number b => a == b
  | .text a, .text b => a == b
  | .array as, .array bs => equalItems as bs
  | .object as, .object bs => equalFields as bs
  | _, _ => false

/-- Whether two lists have equal members in the same order. -/
def equalItems : List Json → List Json → Bool
  | [], [] => true
  | a :: as, b :: bs => equal a b && equalItems as bs
  | _, _ => false

/-- Whether two objects have the same fields in the same order. -/
def equalFields : List (String × Json) → List (String × Json) → Bool
  | [], [] => true
  | (m, a) :: as, (n, b) :: bs => m == n && equal a b && equalFields as bs
  | _, _ => false

end

instance : BEq Json := ⟨equal⟩

/-- The value of the field `name`. -/
def field? (fields : List (String × Json)) (name : String) : Option Json :=
  (fields.find? (·.1 == name)).map (·.2)

/-- Sets a field: a new name goes to the end, a name already there keeps its place. -/
def setField (fields : List (String × Json)) (name : String) (value : Json) :
    List (String × Json) :=
  match fields with
  | [] => [(name, value)]
  | (n, v) :: rest =>
    if n = name then (n, value) :: rest else (n, v) :: setField rest name value

/-- The fields in the order of their first appearance, each with its last value. -/
def ofFields (fields : List (String × Json)) : Json :=
  .object (fields.foldl (fun done (n, v) => setField done n v) [])

mutual

/-- The text of a value inside a list or an object that is shown in a message. -/
def shownInside : Json → String
  | .null => "None"
  | .bool b => if b then "True" else "False"
  | .integer i => toString i
  | .number x => generalText "nan" "inf" x
  | .text s => quoted s
  | .array items => "[" ++ ", ".intercalate (shownItems items) ++ "]"
  | .object fields => "\x7b" ++ ", ".intercalate (shownFields fields) ++ "\x7d"

/-- The texts of the members of a list. -/
def shownItems : List Json → List String
  | [] => []
  | j :: js => shownInside j :: shownItems js

/-- The texts of the fields of an object. -/
def shownFields : List (String × Json) → List String
  | [] => []
  | (n, j) :: rest => (quoted n ++ ": " ++ shownInside j) :: shownFields rest

end

/-- The text of a value in a message: a text stands for itself. -/
def shown : Json → String
  | .text s => s
  | j => shownInside j

end Json

end LoxLang
