/-
Reading expressions.

Each level of precedence is one reader made from the reader of the next tighter level; the
levels of binary operators share `chain`, which groups to the left.  From the loosest:

    expression  = IDENTIFIER "=" expression | disjunction
    disjunction = conjunction ( "or" conjunction )*
    conjunction = equality ( "and" equality )*
    equality    = comparison ( ( "!=" | "==" ) comparison )*
    comparison  = sum ( ( ">" | ">=" | "<" | "<=" ) sum )*
    sum         = product ( ( "-" | "+" ) product )*
    product     = unary ( ( "/" | "*" ) unary )*
    unary       = ( "!" | "-" ) unary | called
    called      = primary ( "(" arguments? ")" )*
    primary     = NUMBER | STRING | "true" | "false" | "nil" | "(" expression ")"
                | IDENTIFIER

The target of an assignment is read as an expression; that it is a name is checked when the
`=` is found.  If it is not, the fault is recorded and the left side stands for the whole.
-/
import LoxLang.Reader.Basic

namespace LoxLang.Reader

/-- Goes on with a chain of binary operators of one level, grouping to the left. -/
def chainFrom (operand : Reader Node) (kinds : List Kind)
    (build : Node → Mark → Node → Node) : Nat → Node → Reader Node
  | 0, _ => stuck
  | n + 1, left => do
    if ← check kinds then
      let operator ← advance
      let right ← operand
      chainFrom operand kinds build n (build left operator.mark right)
    else return left

/-- A chain of binary operators of one level. -/
def chain (operand : Reader Node) (kinds : List Kind)
    (build : Node → Mark → Node → Node) : Reader Node := do
  let first ← operand
  bounded fun n => chainFrom operand kinds build n first

/-- A chain of multiplications and divisions. -/
def product (unary : Reader Node) : Reader Node :=
  chain unary [.slash, .star] .binary

/-- A chain of additions and subtractions. -/
def sum (unary : Reader Node) : Reader Node :=
  chain (product unary) [.minus, .plus] .binary

/-- A chain of order comparisons. -/
def comparison (unary : Reader Node) : Reader Node :=
  chain (sum unary) [.greater, .greaterEqual, .less, .lessEqual] .binary

/-- A chain of tests for equality. -/
def equality (unary : Reader Node) : Reader Node :=
  chain (comparison unary) [.bangEqual, .equalEqual] .binary

/-- A chain of `and`. -/
def conjunction (unary : Reader Node) : Reader Node :=
  chain (equality unary) [.andWord] .logical

/-- A chain of `or`. -/
def disjunction (unary : Reader Node) : Reader Node :=
  chain (conjunction unary) [.orWord] .logical

/-- An assignment, or what is looser than none. -/
def assignment (expression unary : Reader Node) : Reader Node := do
  let target ← disjunction unary
  if ← check [.equal] then
    let index ← position
    let equals ← advance
    let value ← expression
    match target with
    | .reference name => return .assign name value
    | _ =>
      report equals index .assignmentTarget
      return target
  else return target

/-- A literal, which is one token. -/
def literal (value : Json) : Reader Node := do
  let _ ← advance
  return .literal value

/-- An expression without operators. -/
def primary (expression : Reader Node) : Reader Node := do
  let t ← peek
  match t.kind with
  | .falseWord => literal (.bool false)
  | .trueWord => literal (.bool true)
  | .nilWord => literal .null
  | .number => literal t.literal
  | .string => if t.terminated then literal t.literal else fail .unterminatedString
  | .identifier =>
    let _ ← advance
    return .reference t.mark
  | .leftParen =>
    let _ ← advance
    let inner ← expression
    let _ ← expect .rightParen .parenAfterExpression
    return .grouping inner
  | .error => fail .unexpectedCharacter
  | _ => fail .expression

/-- Goes on with the calls of a callee. -/
def callsFrom (expression : Reader Node) : Nat → Node → Reader Node
  | 0, _ => stuck
  | n + 1, callee => do
    if ← accept .leftParen then
      let arguments ← listing expression .tooManyArguments
      let paren ← expect .rightParen .parenAfterArguments
      callsFrom expression n (.call callee paren.mark arguments)
    else return callee

/-- An expression and the calls of it. -/
def called (expression : Reader Node) : Reader Node := do
  let callee ← primary expression
  bounded fun n => callsFrom expression n callee

/-- Operators that stand before their operand. -/
def prefixed (expression unary : Reader Node) : Reader Node := do
  if ← check [.bang, .minus] then
    let operator ← advance
    let operand ← unary
    return .unary operator.mark operand
  else called expression

mutual

/-- An expression with at most `n` levels. -/
def expressionUpTo : Nat → Reading → Reply Node
  | 0, _ => .stuck
  | n + 1, s => assignment (expressionUpTo n) (unaryUpTo n) s

/-- An operand of a binary operator with at most `n` levels. -/
def unaryUpTo : Nat → Reading → Reply Node
  | 0, _ => .stuck
  | n + 1, s => prefixed (expressionUpTo n) (unaryUpTo n) s

end

/-- An expression. -/
def expression : Reader Node := bounded expressionUpTo

end LoxLang.Reader
