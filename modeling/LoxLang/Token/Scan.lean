/-
From source text to tokens.

The work has two steps.  `pieces` cuts the characters of a source into `Piece`s: gaps
(white space and comments) and lexemes, which together are the source again.  `place`
gives every lexeme the line and the column where it begins and ends the list with one
token of kind `endOfFile`.

Every source has tokens: a character that begins nothing else is a lexeme of kind `error`,
and a string without a closing quote runs to the end of the source.
-/
import LoxLang.Token.Basic
import LoxLang.Text.Blank

namespace LoxLang

/-- A piece of source text: a gap between tokens, or the lexeme of a token. -/
inductive Piece where
  | gap (chars : List Char)
  | lexeme (kind : Kind) (chars : List Char)
deriving DecidableEq, Repr

/-- The characters of a piece. -/
def Piece.chars : Piece → List Char
  | .gap cs => cs
  | .lexeme _ cs => cs

/-- Whether `c` begins an identifier or a keyword. -/
def isWordStart (c : Char) : Bool :=
  c.isAlpha || c == '_'

/-- Whether `c` continues an identifier or a keyword. -/
def isWordPart (c : Char) : Bool :=
  c.isAlphanum || c == '_'

/-- The kind of a word: a keyword is one only when it is the whole word. -/
def wordKind (word : List Char) : Kind :=
  ((keywords.find? fun (k, _) => k.toList == word).map (·.2)).getD .identifier

/-- The longest number at the beginning of a text that begins with a digit.  A point
belongs to it only with a digit after it. -/
def numberLexeme (cs : List Char) : List Char :=
  let whole := cs.takeWhile Char.isDigit
  match cs.dropWhile Char.isDigit with
  | '.' :: rest =>
    let fraction := rest.takeWhile Char.isDigit
    if fraction.isEmpty then whole else whole ++ '.' :: fraction
  | _ => whole

/-- A string from its opening quote to its closing one, or to the end of the text if there
is none. -/
def stringLexeme (afterQuote : List Char) : List Char :=
  let body := afterQuote.takeWhile (· != '"')
  '"' :: (body ++ (afterQuote.dropWhile (· != '"')).take 1)

/-- The kind of the lexeme that one character makes, and of the longer one that it makes
with an `=` after it. -/
def symbolKinds : Char → Option (Kind × Option Kind)
  | '(' => some (.leftParen, none)
  | ')' => some (.rightParen, none)
  | '\x7b' => some (.leftBrace, none)
  | '\x7d' => some (.rightBrace, none)
  | ',' => some (.comma, none)
  | '.' => some (.dot, none)
  | '-' => some (.minus, none)
  | '+' => some (.plus, none)
  | ';' => some (.semicolon, none)
  | '/' => some (.slash, none)
  | '*' => some (.star, none)
  | '!' => some (.bang, some .bangEqual)
  | '=' => some (.equal, some .equalEqual)
  | '>' => some (.greater, some .greaterEqual)
  | '<' => some (.less, some .lessEqual)
  | _ => none

/-- The lexeme of the symbol `c` before the text `cs`. -/
def symbolLexeme (c : Char) (cs : List Char) : Piece :=
  match symbolKinds c with
  | none => .lexeme .error [c]
  | some (kind, none) => .lexeme kind [c]
  | some (kind, some withEqual) =>
    match cs with
    | '=' :: _ => .lexeme withEqual [c, '=']
    | _ => .lexeme kind [c]

/-- The first piece of the text `c :: cs`. -/
def firstPiece (c : Char) (cs : List Char) : Piece :=
  if isBlank c then .gap [c]
  else if c == '/' && cs.head? == some '/' then .gap ((c :: cs).takeWhile (· != '\n'))
  else if c == '"' then .lexeme .string (stringLexeme cs)
  else if c.isDigit then .lexeme .number (numberLexeme (c :: cs))
  else if isWordStart c then
    let word := (c :: cs).takeWhile isWordPart
    .lexeme (wordKind word) word
  else symbolLexeme c cs

/-- The pieces of a text, at most `n` of them. -/
def piecesUpTo : Nat → List Char → List Piece
  | 0, _ => []
  | _ + 1, [] => []
  | n + 1, c :: cs =>
    let piece := firstPiece c cs
    piece :: piecesUpTo n ((c :: cs).drop piece.chars.length)

/-- The pieces of a text: as no piece is empty, there are at most as many as characters. -/
def pieces (cs : List Char) : List Piece :=
  piecesUpTo cs.length cs

/-- A place in a source: line and column, both counted from one. -/
structure Place where
  line : Nat
  column : Nat
deriving DecidableEq, Repr

/-- The place where a source begins. -/
def Place.start : Place := ⟨1, 1⟩

/-- The place after one more character. -/
def Place.next (p : Place) (c : Char) : Place :=
  if c = '\n' then ⟨p.line + 1, 1⟩ else ⟨p.line, p.column + 1⟩

/-- The place after some more characters. -/
def Place.after (p : Place) (cs : List Char) : Place :=
  cs.foldl Place.next p

/-- Whether the lexeme of a string has its closing quote. -/
def isClosed (lexeme : List Char) : Bool :=
  1 < lexeme.length && lexeme.getLast? == some '"'

/-- The text between the quotes of the lexeme of a string. -/
def unquote (lexeme : List Char) : List Char :=
  if isClosed lexeme then (lexeme.drop 1).dropLast else lexeme.drop 1

/-- The decimal number that the lexeme of a number writes. -/
def lexemeDecimal (lexeme : List Char) : Decimal :=
  Decimal.ofDigits (lexeme.takeWhile (· != '.')) ((lexeme.dropWhile (· != '.')).drop 1)

/-- The token of a lexeme that begins at a place. -/
def Token.ofLexeme (kind : Kind) (lexeme : List Char) (p : Place) : Token where
  kind := kind
  lexeme := String.ofList lexeme
  line := p.line
  column := p.column
  literal := match kind with
    | .number => .number (lexemeDecimal lexeme).toFloat
    | .string => .text (String.ofList (unquote lexeme))
    | _ => .null
  terminated := kind != .string || isClosed lexeme

/-- The token that ends a source at a place. -/
def Token.atEnd (p : Place) : Token :=
  Token.ofLexeme .endOfFile [] p

/-- The tokens of the pieces of a text that begins at a place, and the one that ends it. -/
def place : Place → List Piece → List Token
  | p, [] => [Token.atEnd p]
  | p, .gap cs :: rest => place (p.after cs) rest
  | p, .lexeme kind cs :: rest => Token.ofLexeme kind cs p :: place (p.after cs) rest

/-- The tokens of a source text. -/
def tokensOf (source : String) : List Token :=
  place .start (pieces source.toList)

/-- The last token of a source text, found without looking at the others. -/
def endToken (source : String) : Token :=
  Token.atEnd (Place.start.after source.toList)

end LoxLang
