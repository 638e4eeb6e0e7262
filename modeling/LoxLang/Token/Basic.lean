/-
Tokens and marks.

A `Token` is a piece of source text with its kind, the place where it begins and, for a
number or a string, the value that it stands for.  A `Mark` is what a syntax tree keeps of
a token.  A tree may come from a JSON text, where nothing says that a line is a number or
that a lexeme is a text, so every field of a mark but its kind is a JSON value;
`Token.mark` gives the mark of a token.
-/
import LoxLang.Json.Basic

namespace LoxLang

/-- The kinds of token. -/
inductive Kind where
  | leftParen
  | rightParen
  | leftBrace
  | rightBrace
  | comma
  | dot
  | minus
  | plus
  | semicolon
  | slash
  | star
  | bang
  | bangEqual
  | equal
  | equalEqual
  | greater
  | greaterEqual
  | less
  | lessEqual
  | identifier
  | string
  | number
  | andWord
  | classWord
  | elseWord
  | falseWord
  | forWord
  | funWord
  | ifWord
  | nilWord
  | orWord
  | printWord
  | returnWord
  | superWord
  | thisWord
  | trueWord
  | varWord
  | whileWord
  | error
  | endOfFile
deriving DecidableEq, Repr, Inhabited

namespace Kind

/-- The name of a kind in an answer and in a JSON tree. -/
def name : Kind → String
  | leftParen => "LEFT_PAREN"
  | rightParen => "RIGHT_PAREN"
  | leftBrace => "LEFT_BRACE"
  | rightBrace => "RIGHT_BRACE"
  | comma => "COMMA"
  | dot => "DOT"
  | minus => "MINUS"
  | plus => "PLUS"
  | semicolon => "SEMICOLON"
  | slash => "SLASH"
  | star => "STAR"
  | bang => "BANG"
  | bangEqual => "BANG_EQUAL"
  | equal => "EQUAL"
  | equalEqual => "EQUAL_EQUAL"
  | greater => "GREATER"
  | greaterEqual => "GREATER_EQUAL"
  | less => "LESS"
  | lessEqual => "LESS_EQUAL"
  | identifier => "IDENTIFIER"
  | string => "STRING"
  | number => "NUMBER"
  | andWord => "AND"
  | classWord => "CLASS"
  | elseWord => "ELSE"
  | falseWord => "FALSE"
  | forWord => "FOR"
  | funWord => "FUN"
  | ifWord => "IF"
  | nilWord => "NIL"
  | orWord => "OR"
  | printWord => "PRINT"
  | returnWord => "RETURN"
  | superWord => "SUPER"
  | thisWord => "THIS"
  | trueWord => "TRUE"
  | varWord => "VAR"
  | whileWord => "WHILE"
  | error => "ERROR"
  | endOfFile => "EOF"

/-- Every kind, once. -/
def all : List Kind :=
  [leftParen, rightParen, leftBrace, rightBrace, comma, dot, minus, plus, semicolon, slash,
   star, bang, bangEqual, equal, equalEqual, greater, greaterEqual, less, lessEqual,
   identifier, string, number, andWord, classWord, elseWord, falseWord, forWord, funWord,
   ifWord, nilWord, orWord, printWord, returnWord, superWord, thisWord, trueWord, varWord,
   whileWord, error, endOfFile]

/-- The kind of a given name. -/
def ofName? (s : String) : Option Kind :=
  all.find? (·.name == s)

/-- A name is read back as the kind that it belongs to. -/
theorem ofName?_name (k : Kind) : ofName? k.name = some k := by
  cases k <;> decide

end Kind

/-- The words that are no identifiers, with their kinds. -/
def keywords : List (String × Kind) :=
  [("and", .andWord), ("class", .classWord), ("else", .elseWord), ("false", .falseWord),
   ("for", .forWord), ("fun", .funWord), ("if", .ifWord), ("nil", .nilWord),
   ("or", .orWord), ("print", .printWord), ("return", .returnWord), ("super", .superWord),
   ("this", .thisWord), ("true", .trueWord), ("var", .varWord), ("while", .whileWord)]

/-- A piece of source text.  `literal` is the value of a number or of a string, and null
for every other kind; only a string that runs into the end of the source is not
`terminated`.  Lines and columns are counted from one, columns in characters. -/
structure Token where
  kind : Kind
  lexeme : String
  line : Nat
  column : Nat
  literal : Json
  terminated : Bool
deriving BEq, Inhabited

/-- What a syntax tree keeps of a token. -/
structure Mark where
  kind : Kind
  lexeme : Json
  line : Json
  column : Json
  literal : Json
  terminated : Json
deriving BEq, Inhabited

/-- The mark of a token. -/
def Token.mark (t : Token) : Mark where
  kind := t.kind
  lexeme := .text t.lexeme
  line := .integer t.line
  column := .integer t.column
  literal := t.literal
  terminated := .bool t.terminated

/-- A token on one line: its kind, its quoted text and its line. -/
def Token.summary (t : Token) : String :=
  "Token(" ++ t.kind.name ++ ", " ++ quoted t.lexeme ++ ", line=" ++ toString t.line ++ ")"

end LoxLang
