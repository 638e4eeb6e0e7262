/-
The grammar of the language.

`Grammar.Program tokens statements` says that a list of tokens is a program and that these are
its trees.  The grammar is, from the loosest level to the tightest:

    program     → declaration* EOF
    declaration → funDecl | varDecl | statement
    funDecl     → "fun" IDENTIFIER "(" parameters? ")" block
    varDecl     → "var" IDENTIFIER ( "=" expression )? ";"
    statement   → exprStmt | printStmt | ifStmt | whileStmt | forStmt | block | returnStmt
    expression  → IDENTIFIER "=" expression | logic_or
    logic_or    → logic_and ( "or" logic_and )*
    ...
    factor      → unary ( ( "/" | "*" ) unary )*
    unary       → ( "!" | "-" ) unary | call
    call        → primary ( "(" arguments? ")" )*
    primary     → NUMBER | STRING | "true" | "false" | "nil" | "(" expression ")" | IDENTIFIER

It is written so that a derivation has one tree.  A repetition that groups to the left is a
rule that refers to itself on the left: `logic_or → logic_and | logic_or "or" logic_and`.  An
`else` belongs to the nearest `if` that is still open, so that a statement in front of `else`
is not allowed to end in an `if` without one.  The side conditions of the language stand with
the rules: a string is terminated, there are at most so many arguments and parameters, and a
`return` is inside the body of a function.
-/
import LoxLang.Diagnostic
import LoxLang.Tree.Basic

namespace LoxLang.Grammar

/-! ### Expressions -/

/-- A level of operators between two operands.  Those of a lazy level may leave their right
side alone. -/
structure Level where
  operators : List Kind
  isLazy : Bool

/-- The tree of an operator between two operands. -/
def Level.build (level : Level) : Node → Mark → Node → Node :=
  cond level.isLazy .logical .binary

/-- The levels of operators between two operands, from the loosest to the tightest. -/
def levels : List Level :=
  [⟨[.orWord], true⟩, ⟨[.andWord], true⟩, ⟨[.bangEqual, .equalEqual], false⟩,
   ⟨[.greater, .greaterEqual, .less, .lessEqual], false⟩, ⟨[.minus, .plus], false⟩,
   ⟨[.slash, .star], false⟩]

/-- What a token stands for that is a literal.  A string has to be terminated. -/
def literal? (t : Token) : Option Json :=
  match t.kind with
  | .falseWord => some (.bool false)
  | .trueWord => some (.bool true)
  | .nilWord => some .null
  | .number => some t.literal
  | .string => if t.terminated then some t.literal else none
  | _ => none

/-- The sorts of expression.  A `chain` has operators of the given levels only. -/
inductive Tier where
  | expression
  | chain (levels : List Level)
  | unary
  | call
  | primary
  | arguments

/-- The tokens are an expression with this tree.  Arguments are a list of trees. -/
inductive Expression : Tier → List Token → Node → Prop where
  | assignment (hname : name.kind = .identifier) (hequal : equal.kind = .equal)
      (value : Expression .expression ts e) :
      Expression .expression (name :: equal :: ts) (.assign name.mark e)
  | disjunction (h : Expression (.chain levels) ts e) : Expression .expression ts e
  | operator
      (left : Expression (.chain (level :: rest)) ts e) (hop : op.kind ∈ level.operators)
      (right : Expression (.chain rest) us f) :
      Expression (.chain (level :: rest)) (ts ++ op :: us) (level.build e op.mark f)
  | tighter (h : Expression (.chain rest) ts e) :
      Expression (.chain (level :: rest)) ts e
  | operand (h : Expression .unary ts e) : Expression (.chain []) ts e
  | prefixed (hop : op.kind = .bang ∨ op.kind = .minus) (h : Expression .unary ts e) :
      Expression .unary (op :: ts) (.unary op.mark e)
  | called (h : Expression .call ts e) : Expression .unary ts e
  | callWithout (callee : Expression .call ts e) (hleft : leftParen.kind = .leftParen)
      (hright : rightParen.kind = .rightParen) :
      Expression .call (ts ++ [leftParen, rightParen]) (.call e rightParen.mark [])
  | callWith (callee : Expression .call ts e) (hleft : leftParen.kind = .leftParen)
      (arguments : Expression .arguments us (.many es)) (hcount : es.length ≤ maxArguments)
      (hright : rightParen.kind = .rightParen) :
      Expression .call (ts ++ leftParen :: us ++ [rightParen]) (.call e rightParen.mark es)
  | uncalled (h : Expression .primary ts e) : Expression .call ts e
  | literal (h : literal? t = some j) : Expression .primary [t] (.literal j)
  | reference (hname : name.kind = .identifier) :
      Expression .primary [name] (.reference name.mark)
  | grouping (hleft : leftParen.kind = .leftParen) (h : Expression .expression ts e)
      (hright : rightParen.kind = .rightParen) :
      Expression .primary (leftParen :: ts ++ [rightParen]) (.grouping e)
  | lastArgument (h : Expression .expression ts e) : Expression .arguments ts (.many [e])
  | argument (h : Expression .expression ts e) (hcomma : comma.kind = .comma)
      (rest : Expression .arguments us (.many es)) :
      Expression .arguments (ts ++ comma :: us) (.many (e :: es))

theorem Level.build_ne_reference (level : Level) (e f : Node) (m n : Mark) :
    level.build e m f ≠ .reference n := by
  rw [build]
  cases level.isLazy <;> simp

/-- What has the tree of a name is a name. -/
theorem Expression.eq_reference {tier : Tier} {ts : List Token} {m : Mark}
    (h : Expression tier ts (.reference m)) :
    ∃ t, ts = [t] ∧ t.kind = .identifier ∧ m = t.mark := by
  generalize he : Node.reference m = e at h
  induction h with
  | reference hname =>
    cases he
    exact ⟨_, rfl, hname, rfl⟩
  | disjunction _ ih | tighter _ ih | operand _ ih | called _ ih | uncalled _ ih => exact ih he
  | operator => exact (Level.build_ne_reference _ _ _ _ _ he.symm).elim
  | _ => cases he

/-- The kinds of token with which an expression without operators begins. -/
def primaryStarts : List Kind :=
  [.falseWord, .trueWord, .nilWord, .number, .string, .identifier, .leftParen]

/-- The kinds of token with which an expression begins. -/
def starts : List Kind := .bang :: .minus :: primaryStarts

theorem literal?_start {t : Token} {j : Json} (h : literal? t = some j) :
    t.kind ∈ primaryStarts := by
  unfold literal? at h
  split at h <;> simp_all [primaryStarts]

/-- An expression begins with a token of certain kinds; without an operator before it, the
kinds are fewer. -/
theorem Expression.first {tier : Tier} {ts : List Token} {e : Node} (h : Expression tier ts e) :
    ∃ t rest, ts = t :: rest ∧ t.kind ∈ starts ∧
      (tier = .call ∨ tier = .primary → t.kind ∈ primaryStarts) := by
  have hsub : primaryStarts ⊆ starts := by decide
  induction h with
  | assignment hname => exact ⟨_, _, rfl, by simp [hname, starts, primaryStarts], by simp⟩
  | disjunction _ ih | tighter _ ih | operand _ ih | called _ ih | lastArgument _ ih =>
    obtain ⟨t, rest, rfl, ht, -⟩ := ih
    exact ⟨t, rest, rfl, ht, by simp⟩
  | operator _ _ _ ih | argument _ _ _ ih =>
    obtain ⟨t, rest, rfl, ht, -⟩ := ih
    exact ⟨t, _, rfl, ht, by simp⟩
  | prefixed hop =>
    refine ⟨_, _, rfl, ?_, by simp⟩
    rcases hop with hop | hop
    · simp [hop, starts]
    · simp [hop, starts]
  | uncalled _ ih =>
    obtain ⟨t, rest, rfl, -, ht⟩ := ih
    exact ⟨t, rest, rfl, hsub (ht (.inr rfl)), fun _ => ht (.inr rfl)⟩
  | callWithout _ _ _ ih | callWith _ _ _ _ _ ih =>
    obtain ⟨t, rest, rfl, -, ht⟩ := ih
    exact ⟨t, _, rfl, hsub (ht (.inl rfl)), fun _ => ht (.inl rfl)⟩
  | literal hj => exact ⟨_, _, rfl, hsub (literal?_start hj), fun _ => literal?_start hj⟩
  | reference hname =>
    exact ⟨_, _, rfl, by simp [hname, starts, primaryStarts], by simp [hname, primaryStarts]⟩
  | grouping hleft =>
    exact ⟨_, _, rfl, by simp [hleft, starts, primaryStarts], by simp [hleft, primaryStarts]⟩

/-- The tokens are an expression, or there are none. -/
inductive Optional : List Token → Node → Prop where
  | absent : Optional [] .missing
  | present (h : Expression .expression ts e) : Optional ts e

/-! ### Statements -/

/-- The rest of the declaration of a variable, from its name on. -/
inductive Variable : List Token → Node → Prop where
  | bare (hname : name.kind = .identifier) (hsemicolon : semicolon.kind = .semicolon) :
      Variable [name, semicolon] (.declare name.mark .missing)
  | initialized (hname : name.kind = .identifier) (hequal : equal.kind = .equal)
      (value : Expression .expression ts e) (hsemicolon : semicolon.kind = .semicolon) :
      Variable (name :: equal :: ts ++ [semicolon]) (.declare name.mark e)

/-- The names of one or more parameters. -/
inductive Parameters : List Token → List Mark → Prop where
  | last (hname : name.kind = .identifier) : Parameters [name] [name.mark]
  | more (hname : name.kind = .identifier) (hcomma : comma.kind = .comma)
      (rest : Parameters ts params) :
      Parameters (name :: comma :: ts) (name.mark :: params)

/-- The names of some parameters, or none. -/
inductive OptionalParameters : List Token → List Mark → Prop where
  | absent : OptionalParameters [] []
  | present (h : Parameters ts params) : OptionalParameters ts params

/-- The first part of a `for`, with its semicolon. -/
inductive Initializer : List Token → Node → Prop where
  | absent (hsemicolon : semicolon.kind = .semicolon) : Initializer [semicolon] .missing
  | declare (hword : word.kind = .varWord) (h : Variable ts e) : Initializer (word :: ts) e
  | expression (h : Expression .expression ts e) (hsemicolon : semicolon.kind = .semicolon) :
      Initializer (ts ++ [semicolon]) (.evaluate e)

/-- A body with the increment of a `for` after it. -/
def thenIncrement (body : Node) : Node → Node
  | .missing => body
  | increment => .block [body, .evaluate increment]

/-- The condition of a `for`, which holds where there is none. -/
def orTrue : Node → Node
  | .missing => .literal (.bool true)
  | condition => condition

/-- A loop with the initializer of a `for` before it. -/
def afterInitializer (loop : Node) : Node → Node
  | .missing => loop
  | initializer => .block [initializer, loop]

/-- The sorts of statement.  A statement is `ajar` if an `else` after it would belong to it. -/
inductive Form where
  | declarations
  | declaration
  | statement (ajar : Bool)

/-- The tokens are a statement, in so many bodies of functions, with this tree.  Declarations
are a list of trees. -/
inductive Statement : Nat → Form → List Token → Node → Prop where
  | noDeclaration : Statement d .declarations [] (.many [])
  | moreDeclarations (first : Statement d .declaration ts e)
      (rest : Statement d .declarations us (.many es)) :
      Statement d .declarations (ts ++ us) (.many (e :: es))
  | function (hword : word.kind = .funWord)
      (hname : name.kind = .identifier) (hleft : leftParen.kind = .leftParen)
      (parameters : OptionalParameters ts params) (hcount : params.length ≤ maxArguments)
      (hright : rightParen.kind = .rightParen) (hopen : leftBrace.kind = .leftBrace)
      (body : Statement (d + 1) .declarations us (.many es))
      (hclose : rightBrace.kind = .rightBrace) :
      Statement d .declaration
        (word :: name :: leftParen :: ts ++ rightParen :: leftBrace :: us ++ [rightBrace])
        (.function name.mark params es)
  | declare (hword : word.kind = .varWord) (h : Variable ts e) :
      Statement d .declaration (word :: ts) e
  | statement (h : Statement d (.statement ajar) ts e) :
      Statement d .declaration ts e
  | expression (h : Expression .expression ts e)
      (hsemicolon : semicolon.kind = .semicolon) :
      Statement d (.statement false) (ts ++ [semicolon]) (.evaluate e)
  | print (hword : word.kind = .printWord) (h : Expression .expression ts e)
      (hsemicolon : semicolon.kind = .semicolon) :
      Statement d (.statement false) (word :: ts ++ [semicolon]) (.print e)
  | ifThen (hword : word.kind = .ifWord)
      (hleft : leftParen.kind = .leftParen) (condition : Expression .expression ts e)
      (hright : rightParen.kind = .rightParen)
      (thenBranch : Statement d (.statement ajar) us f) :
      Statement d (.statement true) (word :: leftParen :: ts ++ rightParen :: us)
        (.branch e f .missing)
  | ifElse (hword : word.kind = .ifWord)
      (hleft : leftParen.kind = .leftParen) (condition : Expression .expression ts e)
      (hright : rightParen.kind = .rightParen)
      (thenBranch : Statement d (.statement false) us f) (helse : elseWord.kind = .elseWord)
      (elseBranch : Statement d (.statement ajar) vs g) :
      Statement d (.statement ajar)
        (word :: leftParen :: ts ++ rightParen :: us ++ elseWord :: vs) (.branch e f g)
  | whileLoop (hword : word.kind = .whileWord)
      (hleft : leftParen.kind = .leftParen) (condition : Expression .expression ts e)
      (hright : rightParen.kind = .rightParen) (body : Statement d (.statement ajar) us f) :
      Statement d (.statement ajar) (word :: leftParen :: ts ++ rightParen :: us) (.loop e f)
  | forLoop (hword : word.kind = .forWord)
      (hleft : leftParen.kind = .leftParen) (initializer : Initializer ts e)
      (condition : Optional us f) (hsemicolon : semicolon.kind = .semicolon)
      (increment : Optional vs g) (hright : rightParen.kind = .rightParen)
      (body : Statement d (.statement ajar) ws h) :
      Statement d (.statement ajar)
        (word :: leftParen :: ts ++ us ++ semicolon :: vs ++ rightParen :: ws)
        (afterInitializer (.loop (orTrue f) (thenIncrement h g)) e)
  | giveBack (hword : word.kind = .returnWord) (value : Optional ts e)
      (hsemicolon : semicolon.kind = .semicolon) (hinside : d ≠ 0) :
      Statement d (.statement false) (word :: ts ++ [semicolon]) (.giveBack word.mark e)
  | block (hopen : leftBrace.kind = .leftBrace)
      (statements : Statement d .declarations ts (.many es))
      (hclose : rightBrace.kind = .rightBrace) :
      Statement d (.statement false) (leftBrace :: ts ++ [rightBrace]) (.block es)

/-- The kinds of token with which a statement begins that declares nothing. -/
def statementStarts : List Kind :=
  [.printWord, .ifWord, .whileWord, .forWord, .returnWord, .leftBrace] ++ starts

/-- The kinds of token with which a declaration begins. -/
def declarationStarts : List Kind := .funWord :: .varWord :: statementStarts

/-- A declaration begins with a token of certain kinds. -/
theorem Statement.first {d : Nat} {form : Form} {ts : List Token} {e : Node}
    (h : Statement d form ts e) (hform : form ≠ .declarations) :
    ∃ t rest, ts = t :: rest ∧ t.kind ∈ declarationStarts ∧
      ∀ ajar, form = .statement ajar → t.kind ∈ statementStarts := by
  have hsub : statementStarts ⊆ declarationStarts := by decide
  have start {t : Token} {rest : List Token} {kind : Kind} {form : Form} (ht : t.kind = kind)
      (hkind : kind ∈ statementStarts) :
      ∃ t' rest', t :: rest = t' :: rest' ∧ t'.kind ∈ declarationStarts ∧
        ∀ ajar, form = .statement ajar → t'.kind ∈ statementStarts := by
    rw [← ht] at hkind
    exact ⟨t, rest, rfl, hsub hkind, fun _ _ => hkind⟩
  induction h with
  | noDeclaration | moreDeclarations => exact absurd rfl hform
  | function hword => exact ⟨_, _, rfl, by simp [hword, declarationStarts], by simp⟩
  | declare hword => exact ⟨_, _, rfl, by simp [hword, declarationStarts], by simp⟩
  | statement _ ih =>
    obtain ⟨t, rest, rfl, -, ht⟩ := ih (by simp)
    exact ⟨t, rest, rfl, hsub (ht _ rfl), by simp⟩
  | expression h =>
    obtain ⟨t, rest, rfl, ht, -⟩ := h.first
    exact start rfl (List.mem_append_right _ ht)
  | print hword => exact start hword (by decide)
  | ifThen hword => exact start hword (by decide)
  | ifElse hword => exact start hword (by decide)
  | whileLoop hword => exact start hword (by decide)
  | forLoop hword => exact start hword (by decide)
  | giveBack hword => exact start hword (by decide)
  | block hword => exact start hword (by decide)

/-- The tokens are a program with these trees. -/
inductive Program : List Token → List Node → Prop where
  | intro (h : Statement 0 .declarations ts (.many es)) (hend : t.kind = .endOfFile) :
      Program (ts ++ [t]) es

end LoxLang.Grammar
