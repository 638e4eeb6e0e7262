/-
Reading statements.

    program     = declaration* EOF
    declaration = "fun" function | "var" variable | statement
    function    = IDENTIFIER "(" parameters? ")" block
    variable    = IDENTIFIER ( "=" expression )? ";"
    statement   = "print" expression ";" | "if" "(" expression ")" statement
                    ( "else" statement )? | "while" "(" expression ")" statement
                | "for" "(" ( "var" variable | expression ";" | ";" ) expression? ";"
                    expression? ")" statement
                | "return" expression? ";" | block | expression ";"
    block       = "{" declaration* "}"

A declaration with a fault is dropped, and reading goes on after the next semicolon or
before the next word that begins a statement, whichever comes first.  A `for` is read as
the blocks and the `while` that it abbreviates.
-/
import LoxLang.Reader.Expression

namespace LoxLang.Reader

/-- The kinds of token that begin a statement and nothing else. -/
def statementWords : List Kind :=
  [.classWord, .funWord, .varWord, .forWord, .ifWord, .whileWord, .printWord, .returnWord]

/-- Moves on until a semicolon has been passed, or the current token begins a statement or
ends the source. -/
def skipToBoundary : Nat → Reader Unit
  | 0 => stuck
  | n + 1 => fun s =>
    if s.cursor.isAtEnd || s.cursor.previous.any (·.kind == .semicolon)
        || s.cursor.check statementWords then .ok () s
    else skipToBoundary n { s with cursor := s.cursor.next }

/-- Moves past at least one token to the place where reading goes on after a fault. -/
def resume : Reader Unit := do
  let _ ← advance
  bounded skipToBoundary

/-- Reads a declaration; one with a fault is dropped. -/
def recovering (p : Reader Node) : Reader (Option Node) := fun s =>
  match p s with
  | .ok node s => .ok (some node) s
  | .failed s => match resume s with
    | .ok _ s => .ok none s
    | .failed s => .failed s
    | .stuck => .stuck
  | .stuck => .stuck

/-- Reads inside a function body. -/
def inFunction {α : Type} (p : Reader α) : Reader α := fun s =>
  match p { s with depth := s.depth + 1 } with
  | .ok a s => .ok a { s with depth := s.depth - 1 }
  | .failed s => .failed { s with depth := s.depth - 1 }
  | .stuck => .stuck

/-- Reads declarations until `stop`, leaving out those that are dropped. -/
def declarationsUntil (stop : Reader Bool) (declaration : Reader (Option Node)) :
    Nat → Reader (List Node)
  | 0 => stuck
  | n + 1 => do
    if ← stop then return []
    else
      let first ← declaration
      let rest ← declarationsUntil stop declaration n
      return first.toList ++ rest

/-- Whether a block can have no further statement. -/
def atBlockEnd : Reader Bool := fun s =>
  .ok (s.cursor.check [.rightBrace] || s.cursor.isAtEnd) s

/-- The statements of a block, from the token after its opening brace on. -/
def blockBody (declaration : Reader (Option Node)) : Reader (List Node) := do
  let statements ← bounded (declarationsUntil atBlockEnd declaration)
  let _ ← expect .rightBrace .braceAfterBlock
  return statements

/-- The name of a parameter. -/
def parameter : Reader Mark := do
  let t ← expect .identifier .parameterName
  return t.mark

/-- A function, from its name on. -/
def function (declaration : Reader (Option Node)) : Reader Node := do
  let name ← expect .identifier .functionName
  let _ ← expect .leftParen .parenAfterFunctionName
  let params ← listing parameter .tooManyParameters
  let _ ← expect .rightParen .parenAfterParameters
  let _ ← expect .leftBrace .braceBeforeBody
  let body ← inFunction (blockBody declaration)
  return .function name.mark params body

/-- The declaration of a variable, from its name on. -/
def variableFrom : Reader Node := do
  let name ← expect .identifier .variableName
  let initializer ← do
    if ← accept .equal then expression else pure .missing
  let _ ← expect .semicolon .semicolonAfterVariable
  return .declare name.mark initializer

/-- An expression as a statement. -/
def expressionStatement : Reader Node := do
  let e ← expression
  let _ ← expect .semicolon .semicolonAfterExpression
  return .evaluate e

/-- A print statement, from the expression on. -/
def printFrom : Reader Node := do
  let e ← expression
  let _ ← expect .semicolon .semicolonAfterPrinted
  return .print e

/-- A conditional, from its condition on.  An `else` belongs to the nearest `if`. -/
def ifFrom (statement : Reader Node) : Reader Node := do
  let _ ← expect .leftParen .parenAfterIf
  let condition ← expression
  let _ ← expect .rightParen .parenAfterIfCondition
  let thenBranch ← statement
  let elseBranch ← do
    if ← accept .elseWord then statement else pure .missing
  return .branch condition thenBranch elseBranch

/-- A loop, from its condition on. -/
def whileFrom (statement : Reader Node) : Reader Node := do
  let _ ← expect .leftParen .parenAfterWhile
  let condition ← expression
  let _ ← expect .rightParen .parenAfterWhileCondition
  let body ← statement
  return .loop condition body

/-- The loop that a `for` with the given parts abbreviates.  Only parts that are there make
a block, so that the increment runs after the body and the initializer has a scope of its
own. -/
def forLoop (initializer condition increment body : Node) : Node :=
  let body := if increment.isMissing then body else .block [body, .evaluate increment]
  let condition := if condition.isMissing then .literal (.bool true) else condition
  let loop := Node.loop condition body
  if initializer.isMissing then loop else .block [initializer, loop]

/-- The first part of a `for`, with its semicolon. -/
def forInitializer : Reader Node := do
  if ← accept .semicolon then return .missing
  else if ← accept .varWord then variableFrom
  else expressionStatement

/-- An expression that may be left out before a token of the given kind. -/
def optionalBefore (kind : Kind) : Reader Node := do
  if ← check [kind] then return .missing else expression

/-- A `for`, from its opening parenthesis on. -/
def forFrom (statement : Reader Node) : Reader Node := do
  let _ ← expect .leftParen .parenAfterFor
  let initializer ← forInitializer
  let condition ← optionalBefore .semicolon
  let _ ← expect .semicolon .semicolonAfterLoopCondition
  let increment ← optionalBefore .rightParen
  let _ ← expect .rightParen .parenAfterForClauses
  let body ← statement
  return forLoop initializer condition increment body

/-- Records a fault of the given token outside every function body. -/
def demandFunction (keyword : Token) (index : Nat) : Reader Unit := fun s =>
  if s.depth = 0 then report keyword index .topLevelReturn s else .ok () s

/-- A return statement. -/
def returnStatement : Reader Node := do
  let index ← position
  let keyword ← advance
  demandFunction keyword index
  let value ← optionalBefore .semicolon
  let _ ← expect .semicolon .semicolonAfterReturned
  return .giveBack keyword.mark value

/-- A statement that declares nothing. -/
def statementStep (declaration : Reader (Option Node)) (statement : Reader Node) :
    Reader Node := do
  match (← peek).kind with
  | .printWord =>
    let _ ← advance
    printFrom
  | .ifWord =>
    let _ ← advance
    ifFrom statement
  | .whileWord =>
    let _ ← advance
    whileFrom statement
  | .forWord =>
    let _ ← advance
    forFrom statement
  | .returnWord => returnStatement
  | .leftBrace =>
    let _ ← advance
    let statements ← blockBody declaration
    return .block statements
  | _ => expressionStatement

/-- A declaration or a statement, which may have a fault. -/
def declarationStep (declaration : Reader (Option Node)) (statement : Reader Node) :
    Reader Node := do
  if ← accept .funWord then function declaration
  else if ← accept .varWord then variableFrom
  else statement

mutual

/-- A declaration with at most `n` levels. -/
def declarationUpTo : Nat → Reading → Reply (Option Node)
  | 0, _ => .stuck
  | n + 1, s => recovering (declarationStep (declarationUpTo n) (statementUpTo n)) s

/-- A statement with at most `n` levels. -/
def statementUpTo : Nat → Reading → Reply Node
  | 0, _ => .stuck
  | n + 1, s => statementStep (declarationUpTo n) (statementUpTo n) s

end

/-- A declaration, unless it has a fault. -/
def declaration : Reader (Option Node) := bounded declarationUpTo

/-- The statements of a whole program. -/
def program : Reader (List Node) :=
  bounded (declarationsUntil atEnd declaration)

end LoxLang.Reader
