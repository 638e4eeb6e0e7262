/-
What is said about a program that is wrong.

A `SyntaxError` blames a token of the source, a `RuntimeError` the mark of one in a syntax
tree.  Both name a cause, a value of an enumeration; the words of each cause stand in one
function.  A `Diagnostic` is the form in which errors are shown: `Diagnostic.report` is the
line that is written for one.
-/
import LoxLang.Token.Basic

namespace LoxLang

/-- Why a list of tokens is no program. -/
inductive SyntaxFault where
  | functionName
  | parenAfterFunctionName
  | parameterName
  | parenAfterParameters
  | braceBeforeBody
  | variableName
  | semicolonAfterVariable
  | semicolonAfterPrinted
  | semicolonAfterExpression
  | braceAfterBlock
  | parenAfterIf
  | parenAfterIfCondition
  | parenAfterWhile
  | parenAfterWhileCondition
  | parenAfterFor
  | semicolonAfterLoopCondition
  | parenAfterForClauses
  | semicolonAfterReturned
  | parenAfterArguments
  | parenAfterExpression
  | expression
  | unexpectedCharacter
  | unterminatedString
  | assignmentTarget
  | tooManyArguments
  | tooManyParameters
  | topLevelReturn
deriving DecidableEq, Repr

/-- The largest number of parameters of a function and of arguments of a call. -/
def maxArguments : Nat := 255

/-- The words for a fault. -/
def SyntaxFault.message : SyntaxFault → String
  | functionName => "Expect function name."
  | parenAfterFunctionName => "Expect '(' after function name."
  | parameterName => "Expect parameter name."
  | parenAfterParameters => "Expect ')' after parameters."
  | braceBeforeBody => "Expect '\x7b' before function body."
  | variableName => "Expect variable name."
  | semicolonAfterVariable => "Expect ';' after variable declaration."
  | semicolonAfterPrinted => "Expect ';' after value."
  | semicolonAfterExpression => "Expect ';' after expression."
  | braceAfterBlock => "Expect '\x7d' after block."
  | parenAfterIf => "Expect '(' after 'if'."
  | parenAfterIfCondition => "Expect ')' after if condition."
  | parenAfterWhile => "Expect '(' after 'while'."
  | parenAfterWhileCondition => "Expect ')' after condition."
  | parenAfterFor => "Expect '(' after 'for'."
  | semicolonAfterLoopCondition => "Expect ';' after loop condition."
  | parenAfterForClauses => "Expect ')' after for clauses."
  | semicolonAfterReturned => "Expect ';' after return value."
  | parenAfterArguments => "Expect ')' after arguments."
  | parenAfterExpression => "Expect ')' after expression."
  | expression => "Expect expression."
  | unexpectedCharacter => "Unexpected character."
  | unterminatedString => "Unterminated string."
  | assignmentTarget => "Invalid assignment target."
  | tooManyArguments => "Can't have more than " ++ toString maxArguments ++ " arguments."
  | tooManyParameters => "Can't have more than " ++ toString maxArguments ++ " parameters."
  | topLevelReturn => "Can't return from top-level code."

/-- Whether the statement in which a fault is found is given up.  The other faults are
reported and the statement is read on. -/
def SyntaxFault.unwinds : SyntaxFault → Bool
  | assignmentTarget | tooManyArguments | tooManyParameters | topLevelReturn => false
  | _ => true

/-- A fault, the token it is blamed on, and the index of that token in its list. -/
structure SyntaxError where
  token : Token
  index : Nat
  fault : SyntaxFault

/-- Why a program stops. -/
inductive RuntimeFault where
  | operand
  | operands
  | operandsOfPlus
  | notCallable
  | argumentCount (expected given : Nat)
  | undefinedVariable (name : Json)
  | topLevelReturn
  | unknownOperator (lexeme : Json)
  | stackOverflow

/-- The words for a fault. -/
def RuntimeFault.message : RuntimeFault → String
  | operand => "Operand must be a number."
  | operands => "Operands must be numbers."
  | operandsOfPlus => "Operands must be two numbers or two strings."
  | notCallable => "Can only call functions."
  | argumentCount expected given =>
    "Expected " ++ toString expected ++ " arguments but got " ++ toString given ++ "."
  | undefinedVariable name => "Undefined variable '" ++ name.shown ++ "'."
  | topLevelReturn => "Can't return from top-level code."
  | unknownOperator lexeme => "Unknown operator " ++ lexeme.shown ++ "."
  | stackOverflow => "Stack overflow."

/-- A fault and the mark it is blamed on. -/
structure RuntimeError where
  mark : Mark
  fault : RuntimeFault

/-- The classes of diagnostics. -/
inductive DiagnosticClass where
  | general
  | parsing
  | running
  | undefinedVariable
deriving DecidableEq, Repr

/-- An error as it is shown. -/
structure Diagnostic where
  sort : DiagnosticClass
  mark : Mark
  message : String

/-- Where a syntax error is said to be. -/
def Mark.whereabouts (m : Mark) : String :=
  if m.kind = .endOfFile then " at end" else " at '" ++ m.lexeme.shown ++ "'"

/-- The line that is written for a diagnostic. -/
def Diagnostic.report (d : Diagnostic) : String :=
  let what := match d.sort with
    | .general => "Error"
    | .parsing => "Error" ++ d.mark.whereabouts
    | .running | .undefinedVariable => "RuntimeError"
  "[line " ++ d.mark.line.shown ++ "] " ++ what ++ ": " ++ d.message

/-- A variable without a definition. -/
def Diagnostic.undefined (m : Mark) : Diagnostic :=
  ⟨.undefinedVariable, m, (RuntimeFault.undefinedVariable m.lexeme).message⟩

/-- A syntax error as it is shown. -/
def SyntaxError.diagnostic (e : SyntaxError) : Diagnostic :=
  ⟨.parsing, e.token.mark, e.fault.message⟩

/-- The line that is written for a syntax error. -/
def SyntaxError.report (e : SyntaxError) : String :=
  e.diagnostic.report

/-- A runtime error as it is shown. -/
def RuntimeError.diagnostic (e : RuntimeError) : Diagnostic :=
  match e.fault with
  | .undefinedVariable _ => ⟨.undefinedVariable, e.mark, e.fault.message⟩
  | _ => ⟨.running, e.mark, e.fault.message⟩

/-- The line that is written for a runtime error. -/
def RuntimeError.report (e : RuntimeError) : String :=
  e.diagnostic.report

end LoxLang
