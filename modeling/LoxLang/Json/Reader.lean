/-
Reading JSON texts.

`Json.ofText?` accepts the grammar of JSON, with `NaN`, `Infinity` and `-Infinity` as
numbers and with blanks around the value.  Control characters inside a quoted text and
anything after the value are refused.  A number with a point or an exponent becomes the
nearest double.

Every reader takes the characters still to be read and returns what is left of them.  The
readers of nested values are bounded by a count, which `ofText?` sets to more than twice
the length of the text: of any two steps one leaves fewer characters.
-/
import LoxLang.Json.Basic

namespace LoxLang.Json

/-- The characters left after the blanks that JSON allows between its parts. -/
def skipBlanks (cs : List Char) : List Char :=
  cs.dropWhile fun c => c = ' ' ∨ c = '\t' ∨ c = '\n' ∨ c = '\r'

/-- The value of a digit in base sixteen. -/
def hexDigit? (c : Char) : Option Nat :=
  if '0' ≤ c ∧ c ≤ '9' then some (c.toNat - '0'.toNat)
  else if 'a' ≤ c ∧ c ≤ 'f' then some (c.toNat - 'a'.toNat + 10)
  else if 'A' ≤ c ∧ c ≤ 'F' then some (c.toNat - 'A'.toNat + 10)
  else none

/-- Four digits in base sixteen. -/
def readUnit : List Char → Option (Nat × List Char)
  | a :: b :: c :: d :: rest => do
    let a ← hexDigit? a
    let b ← hexDigit? b
    let c ← hexDigit? c
    let d ← hexDigit? d
    some (((a * 16 + b) * 16 + c) * 16 + d, rest)
  | _ => none

/-- The character written by an escape, from the character after the backslash on.  Two
escapes for the halves of a surrogate pair write one character; a half alone is refused. -/
def readEscape : List Char → Option (Char × List Char)
  | '"' :: rest => some ('"', rest)
  | '\\' :: rest => some ('\\', rest)
  | '/' :: rest => some ('/', rest)
  | 'b' :: rest => some ('\x08', rest)
  | 'f' :: rest => some ('\x0c', rest)
  | 'n' :: rest => some ('\n', rest)
  | 'r' :: rest => some ('\r', rest)
  | 't' :: rest => some ('\t', rest)
  | 'u' :: rest => do
    let (high, rest) ← readUnit rest
    if high < 0xd800 ∨ 0xdfff < high then
      some (Char.ofNat high, rest)
    else if 0xdbff < high then none
    else match rest with
      | '\\' :: 'u' :: rest => do
        let (low, rest) ← readUnit rest
        if 0xdc00 ≤ low ∧ low ≤ 0xdfff then
          some (Char.ofNat (0x10000 + (high - 0xd800) * 0x400 + (low - 0xdc00)), rest)
        else none
      | _ => none
  | _ => none

/-- The characters of a quoted text up to the closing quote. -/
def readQuoted : Nat → List Char → Option (List Char × List Char)
  | 0, _ => none
  | _ + 1, [] => none
  | _ + 1, '"' :: rest => some ([], rest)
  | n + 1, '\\' :: rest => do
    let (c, rest) ← readEscape rest
    let (cs, rest) ← readQuoted n rest
    some (c :: cs, rest)
  | n + 1, c :: rest =>
    if c.toNat < 0x20 then none
    else do
      let (cs, rest) ← readQuoted n rest
      some (c :: cs, rest)

/-- A quoted text, from the character after the opening quote on. -/
def readText (cs : List Char) : Option (String × List Char) :=
  (readQuoted (cs.length + 1) cs).map fun (s, rest) => (String.ofList s, rest)

/-- A run of digits. -/
def digits (cs : List Char) : List Char × List Char :=
  cs.span Char.isDigit

/-- The digits after a point, if there is a point with digits after it. -/
def fraction? : List Char → Option (List Char × List Char)
  | '.' :: cs =>
    let (ds, rest) := digits cs
    if ds.isEmpty then none else some (ds, rest)
  | _ => none

/-- The digits of an exponent with a sign or without, as a number. -/
def signedDigits? (cs : List Char) : Option (Int × List Char) :=
  let (negative, cs) := match cs with
    | '-' :: cs => (true, cs)
    | '+' :: cs => (false, cs)
    | cs => (false, cs)
  let (ds, rest) := digits cs
  if ds.isEmpty then none
  else
    let n : Int := Nat.ofDigitChars 10 ds 0
    some (if negative then -n else n, rest)

/-- The exponent, if there is a mark with digits after it. -/
def exponent? : List Char → Option (Int × List Char)
  | 'e' :: cs => signedDigits? cs
  | 'E' :: cs => signedDigits? cs
  | _ => none

/-- A number without its sign: no digit may follow a zero at its beginning. -/
def readUnsigned (negative : Bool) (cs : List Char) : Option (Json × List Char) :=
  let (whole, rest) := match cs with
    | '0' :: rest => (['0'], rest)
    | cs => digits cs
  if whole.isEmpty then none
  else
    let (fraction, afterFraction) := (fraction? rest).getD ([], rest)
    let (power, afterPower) := (exponent? afterFraction).getD (0, afterFraction)
    if afterPower.length = rest.length then
      let n : Int := Nat.ofDigitChars 10 whole 0
      some (.integer (if negative then -n else n), rest)
    else
      let d := Decimal.ofDigits whole fraction
      let x := (Decimal.mk d.digits (d.exponent + power)).toFloat
      some (.number (if negative then -x else x), afterPower)

/-- The names of the doubles that have no digits. -/
def namedNumbers : List (String × Float) :=
  [("NaN", 0.0 / 0.0), ("Infinity", 1.0 / 0.0), ("-Infinity", -1.0 / 0.0)]

/-- What is left after one of the words that stand for a value. -/
def readWord (cs : List Char) : Option (Json × List Char) :=
  let words := [("null", Json.null), ("true", .bool true), ("false", .bool false)]
    ++ namedNumbers.map fun (name, x) => (name, .number x)
  words.findSome? fun (word, value) =>
    if word.toList.isPrefixOf cs then some (value, cs.drop word.length) else none

/-- A value that holds no other value and is no text: a word or a number. -/
def readAtom (cs : List Char) : Option (Json × List Char) :=
  (readWord cs).or (match cs with
    | '-' :: rest => readUnsigned true rest
    | cs => readUnsigned false cs)

mutual

/-- A value. -/
def readValue : Nat → List Char → Option (Json × List Char)
  | 0, _ => none
  | n + 1, cs => match cs with
    | '"' :: rest => (readText rest).map fun (s, rest) => (.text s, rest)
    | '[' :: rest =>
      match skipBlanks rest with
      | ']' :: rest => some (.array [], rest)
      | rest => (readItems n rest).map fun (js, rest) => (.array js, rest)
    | '\x7b' :: rest =>
      match skipBlanks rest with
      | '\x7d' :: rest => some (.object [], rest)
      | rest => (readFields n rest).map fun (fs, rest) => (ofFields fs, rest)
    | cs => readAtom cs

/-- The members of a list and its closing bracket. -/
def readItems : Nat → List Char → Option (List Json × List Char)
  | 0, _ => none
  | n + 1, cs => do
    let (j, rest) ← readValue n cs
    match skipBlanks rest with
    | ',' :: rest =>
      let (js, rest) ← readItems n (skipBlanks rest)
      some (j :: js, rest)
    | ']' :: rest => some ([j], rest)
    | _ => none

/-- The fields of an object and its closing bracket. -/
def readFields : Nat → List Char → Option (List (String × Json) × List Char)
  | 0, _ => none
  | n + 1, cs => match cs with
    | '"' :: rest => do
      let (name, rest) ← readText rest
      match skipBlanks rest with
      | ':' :: rest =>
        let (j, rest) ← readValue n (skipBlanks rest)
        match skipBlanks rest with
        | ',' :: rest =>
          let (fs, rest) ← readFields n (skipBlanks rest)
          some ((name, j) :: fs, rest)
        | '\x7d' :: rest => some ([(name, j)], rest)
        | _ => none
      | _ => none
    | _ => none

end

/-- The value that a text holds. -/
def ofText? (s : String) : Option Json := do
  let cs := s.toList
  let (j, rest) ← readValue (2 * cs.length + 2) (skipBlanks cs)
  if (skipBlanks rest).isEmpty then some j else none

end LoxLang.Json
