/-
A grammar that lets some faults pass.

Three faults are recorded without giving up what is being read.  The grammar is relaxed so that
tokens with such faults have a derivation too:

    assignment = disjunction ( "=" assignment )?

lists of arguments and of parameters have any length, and a `return` may stand outside every
function body.  A derivation says which errors these are and in which order they come:

* at each `=` whose left side is no name, after the errors of both sides; the left side stands
  for the whole;
* at the first token of each argument or parameter with as many before it as are allowed, before
  the errors of the argument;
* at each `return` outside every function body, before the errors of its value.

An error has the index of its token, so a derivation begins at an index.
-/
import LoxLang.Proofs.Reader.Grammar

namespace LoxLang.Grammar.Lenient

/-! ### Expressions -/

/-- The sorts of expression.  Arguments come after so many others. -/
inductive Tier where
  | expression
  | chain (levels : List Level)
  | unary
  | call
  | primary
  | arguments (count : Nat)

/-- The error of a part that begins with this token and comes after so many others, if no more
are allowed. -/
def limitError (count : Nat) (t : Token) (k : Nat) (fault : SyntaxFault) : List SyntaxError :=
  if maxArguments ≤ count then [⟨t, k, fault⟩] else []

/-- The tokens, from this index on, are an expression with this tree and these errors. -/
inductive Expression : Nat → Tier → List Token → Node → List SyntaxError → Prop where
  | assignment (hname : name.kind = .identifier) (hequal : equal.kind = .equal)
      (value : Expression (k + 2) .expression ts e errors) :
      Expression k .expression (name :: equal :: ts) (.assign name.mark e) errors
  | invalidAssignment (target : Expression k (.chain levels) ts e errors)
      (hother : ∀ name : Token, name.kind = .identifier → ts ≠ [name])
      (hequal : equal.kind = .equal)
      (value : Expression (k + ts.length + 1) .expression us f errors') :
      Expression k .expression (ts ++ equal :: us) e
        (errors ++ errors' ++ [⟨equal, k + ts.length, .assignmentTarget⟩])
  | disjunction (h : Expression k (.chain levels) ts e errors) :
      Expression k .expression ts e errors
  | operator (left : Expression k (.chain (level :: rest)) ts e errors)
      (hop : op.kind ∈ level.operators)
      (right : Expression (k + ts.length + 1) (.chain rest) us f errors') :
      Expression k (.chain (level :: rest)) (ts ++ op :: us) (level.build e op.mark f)
        (errors ++ errors')
  | tighter (h : Expression k (.chain rest) ts e errors) :
      Expression k (.chain (level :: rest)) ts e errors
  | operand (h : Expression k .unary ts e errors) : Expression k (.chain []) ts e errors
  | prefixed (hop : op.kind = .bang ∨ op.kind = .minus)
      (h : Expression (k + 1) .unary ts e errors) :
      Expression k .unary (op :: ts) (.unary op.mark e) errors
  | called (h : Expression k .call ts e errors) : Expression k .unary ts e errors
  | callWithout (callee : Expression k .call ts e errors) (hleft : leftParen.kind = .leftParen)
      (hright : rightParen.kind = .rightParen) :
      Expression k .call (ts ++ [leftParen, rightParen]) (.call e rightParen.mark []) errors
  | callWith (callee : Expression k .call ts e errors) (hleft : leftParen.kind = .leftParen)
      (arguments : Expression (k + ts.length + 1) (.arguments 0) us (.many es) errors')
      (hright : rightParen.kind = .rightParen) :
      Expression k .call (ts ++ leftParen :: us ++ [rightParen]) (.call e rightParen.mark es)
        (errors ++ errors')
  | uncalled (h : Expression k .primary ts e errors) : Expression k .call ts e errors
  | literal (h : literal? t = some j) : Expression k .primary [t] (.literal j) []
  | reference (hname : name.kind = .identifier) :
      Expression k .primary [name] (.reference name.mark) []
  | grouping (hleft : leftParen.kind = .leftParen)
      (h : Expression (k + 1) .expression ts e errors) (hright : rightParen.kind = .rightParen) :
      Expression k .primary (leftParen :: ts ++ [rightParen]) (.grouping e) errors
  | lastArgument (h : Expression k .expression (t :: ts) e errors) :
      Expression k (.arguments count) (t :: ts) (.many [e])
        (limitError count t k .tooManyArguments ++ errors)
  | argument (h : Expression k .expression (t :: ts) e errors) (hcomma : comma.kind = .comma)
      (rest : Expression (k + (t :: ts).length + 1) (.arguments (count + 1)) us (.many es)
        errors') :
      Expression k (.arguments count) (t :: ts ++ comma :: us) (.many (e :: es))
        (limitError count t k .tooManyArguments ++ errors ++ errors')

/-- The tokens are an expression, or there are none. -/
inductive Optional : Nat → List Token → Node → List SyntaxError → Prop where
  | absent : Optional k [] .missing []
  | present (h : Expression k .expression ts e errors) : Optional k ts e errors

/-! ### Statements -/

/-- The rest of the declaration of a variable, from its name on. -/
inductive Variable : Nat → List Token → Node → List SyntaxError → Prop where
  | bare (hname : name.kind = .identifier) (hsemicolon : semicolon.kind = .semicolon) :
      Variable k [name, semicolon] (.declare name.mark .missing) []
  | initialized (hname : name.kind = .identifier) (hequal : equal.kind = .equal)
      (value : Expression (k + 2) .expression ts e errors)
      (hsemicolon : semicolon.kind = .semicolon) :
      Variable k (name :: equal :: ts ++ [semicolon]) (.declare name.mark e) errors

/-- The names of one or more parameters, which come after so many others. -/
inductive Parameters : Nat → Nat → List Token → List Mark → List SyntaxError → Prop where
  | last (hname : name.kind = .identifier) :
      Parameters k count [name] [name.mark] (limitError count name k .tooManyParameters)
  | more (hname : name.kind = .identifier) (hcomma : comma.kind = .comma)
      (rest : Parameters (k + 2) (count + 1) ts params errors) :
      Parameters k count (name :: comma :: ts) (name.mark :: params)
        (limitError count name k .tooManyParameters ++ errors)

/-- The names of some parameters, or none. -/
inductive OptionalParameters : Nat → List Token → List Mark → List SyntaxError → Prop where
  | absent : OptionalParameters k [] [] []
  | present (h : Parameters k 0 ts params errors) : OptionalParameters k ts params errors

/-- The first part of a `for`, with its semicolon. -/
inductive Initializer : Nat → List Token → Node → List SyntaxError → Prop where
  | absent (hsemicolon : semicolon.kind = .semicolon) : Initializer k [semicolon] .missing []
  | declare (hword : word.kind = .varWord) (h : Variable (k + 1) ts e errors) :
      Initializer k (word :: ts) e errors
  | expression (h : Expression k .expression ts e errors)
      (hsemicolon : semicolon.kind = .semicolon) :
      Initializer k (ts ++ [semicolon]) (.evaluate e) errors

/-- The error of a `return` in so many function bodies, if there are none. -/
def returnError (d : Nat) (word : Token) (k : Nat) : List SyntaxError :=
  if d = 0 then [⟨word, k, .topLevelReturn⟩] else []

/-- The tokens, in so many function bodies and from this index on, are a statement with this tree
and these errors. -/
inductive Statement : Nat → Nat → Form → List Token → Node → List SyntaxError → Prop where
  | noDeclaration : Statement d k .declarations [] (.many []) []
  | moreDeclarations (first : Statement d k .declaration ts e errors)
      (rest : Statement d (k + ts.length) .declarations us (.many es) errors') :
      Statement d k .declarations (ts ++ us) (.many (e :: es)) (errors ++ errors')
  | function (hword : word.kind = .funWord) (hname : name.kind = .identifier)
      (hleft : leftParen.kind = .leftParen)
      (parameters : OptionalParameters (k + 3) ts params errors)
      (hright : rightParen.kind = .rightParen) (hopen : leftBrace.kind = .leftBrace)
      (body : Statement (d + 1) (k + 3 + ts.length + 2) .declarations us (.many es) errors')
      (hclose : rightBrace.kind = .rightBrace) :
      Statement d k .declaration
        (word :: name :: leftParen :: ts ++ rightParen :: leftBrace :: us ++ [rightBrace])
        (.function name.mark params es) (errors ++ errors')
  | declare (hword : word.kind = .varWord) (h : Variable (k + 1) ts e errors) :
      Statement d k .declaration (word :: ts) e errors
  | statement (h : Statement d k (.statement ajar) ts e errors) :
      Statement d k .declaration ts e errors
  | expression (h : Expression k .expression ts e errors)
      (hsemicolon : semicolon.kind = .semicolon) :
      Statement d k (.statement false) (ts ++ [semicolon]) (.evaluate e) errors
  | print (hword : word.kind = .printWord) (h : Expression (k + 1) .expression ts e errors)
      (hsemicolon : semicolon.kind = .semicolon) :
      Statement d k (.statement false) (word :: ts ++ [semicolon]) (.print e) errors
  | ifThen (hword : word.kind = .ifWord) (hleft : leftParen.kind = .leftParen)
      (condition : Expression (k + 2) .expression ts e errors)
      (hright : rightParen.kind = .rightParen)
      (thenBranch : Statement d (k + 2 + ts.length + 1) (.statement ajar) us f errors') :
      Statement d k (.statement true) (word :: leftParen :: ts ++ rightParen :: us)
        (.branch e f .missing) (errors ++ errors')
  | ifElse (hword : word.kind = .ifWord) (hleft : leftParen.kind = .leftParen)
      (condition : Expression (k + 2) .expression ts e errors)
      (hright : rightParen.kind = .rightParen)
      (thenBranch : Statement d (k + 2 + ts.length + 1) (.statement false) us f errors')
      (helse : elseWord.kind = .elseWord)
      (elseBranch : Statement d (k + 2 + ts.length + 1 + us.length + 1) (.statement ajar) vs g
        errors'') :
      Statement d k (.statement ajar)
        (word :: leftParen :: ts ++ rightParen :: us ++ elseWord :: vs) (.branch e f g)
        (errors ++ errors' ++ errors'')
  | whileLoop (hword : word.kind = .whileWord) (hleft : leftParen.kind = .leftParen)
      (condition : Expression (k + 2) .expression ts e errors)
      (hright : rightParen.kind = .rightParen)
      (body : Statement d (k + 2 + ts.length + 1) (.statement ajar) us f errors') :
      Statement d k (.statement ajar) (word :: leftParen :: ts ++ rightParen :: us) (.loop e f)
        (errors ++ errors')
  | forLoop (hword : word.kind = .forWord) (hleft : leftParen.kind = .leftParen)
      (initializer : Initializer (k + 2) ts e errors)
      (condition : Optional (k + 2 + ts.length) us f errors')
      (hsemicolon : semicolon.kind = .semicolon)
      (increment : Optional (k + 2 + ts.length + us.length + 1) vs g errors'')
      (hright : rightParen.kind = .rightParen)
      (body : Statement d (k + 2 + ts.length + us.length + 1 + vs.length + 1) (.statement ajar) ws
        h errors''') :
      Statement d k (.statement ajar)
        (word :: leftParen :: ts ++ us ++ semicolon :: vs ++ rightParen :: ws)
        (afterInitializer (.loop (orTrue f) (thenIncrement h g)) e)
        (errors ++ errors' ++ errors'' ++ errors''')
  | giveBack (hword : word.kind = .returnWord) (value : Optional (k + 1) ts e errors)
      (hsemicolon : semicolon.kind = .semicolon) :
      Statement d k (.statement false) (word :: ts ++ [semicolon]) (.giveBack word.mark e)
        (returnError d word k ++ errors)
  | block (hopen : leftBrace.kind = .leftBrace)
      (statements : Statement d (k + 1) .declarations ts (.many es) errors)
      (hclose : rightBrace.kind = .rightBrace) :
      Statement d k (.statement false) (leftBrace :: ts ++ [rightBrace]) (.block es) errors

/-- The tokens are a program with these trees and these errors. -/
inductive Program : List Token → List Node → List SyntaxError → Prop where
  | intro (h : Statement 0 0 .declarations ts (.many es) errors) (hend : t.kind = .endOfFile) :
      Program (ts ++ [t]) es errors

end LoxLang.Grammar.Lenient
