/-
Syntax trees.

`Node` holds the expressions and the statements of the language in one type, because a
tree may come from a JSON text, which can put any node anywhere: an absent one (`missing`),
a list of nodes (`many`), a statement where an expression belongs.  Reading a program builds
only trees in which an absent node stands for a part that may be left out.
-/
import LoxLang.Token.Basic

namespace LoxLang

/-- A node of a syntax tree. -/
inductive Node where
  /-- A part that is left out. -/
  | missing
  /-- A list of nodes in the place of one. -/
  | many (nodes : List Node)
  | literal (value : Json)
  | grouping (inner : Node)
  | unary (operator : Mark) (operand : Node)
  | binary (left : Node) (operator : Mark) (right : Node)
  /-- An operator that may leave its right side alone: `and`, `or`. -/
  | logical (left : Node) (operator : Mark) (right : Node)
  | reference (name : Mark)
  | assign (name : Mark) (value : Node)
  /-- A call; the closing parenthesis says where it is. -/
  | call (callee : Node) (paren : Mark) (arguments : List Node)
  /-- An expression as a statement. -/
  | evaluate (expression : Node)
  | print (expression : Node)
  | declare (name : Mark) (initializer : Node)
  | block (statements : List Node)
  | branch (condition thenBranch elseBranch : Node)
  | loop (condition body : Node)
  | function (name : Mark) (params : List Mark) (body : List Node)
  | giveBack (keyword : Mark) (value : Node)
deriving Inhabited

namespace Node

mutual

/-- Whether two trees have the same shape with equal marks and equal literals. -/
def equal : Node → Node → Bool
  | missing, missing => true
  | many as, many bs => equalAll as bs
  | literal a, literal b => a == b
  | grouping a, grouping b => equal a b
  | unary o a, unary p b => o == p && equal a b
  | binary a o a', binary b p b' => equal a b && o == p && equal a' b'
  | logical a o a', logical b p b' => equal a b && o == p && equal a' b'
  | reference m, reference n => m == n
  | assign m a, assign n b => m == n && equal a b
  | call a m as, call b n bs => equal a b && m == n && equalAll as bs
  | evaluate a, evaluate b => equal a b
  | print a, print b => equal a b
  | declare m a, declare n b => m == n && equal a b
  | block as, block bs => equalAll as bs
  | branch a a' a'', branch b b' b'' => equal a b && equal a' b' && equal a'' b''
  | loop a a', loop b b' => equal a b && equal a' b'
  | function m ms as, function n ns bs => m == n && ms == ns && equalAll as bs
  | giveBack m a, giveBack n b => m == n && equal a b
  | _, _ => false

/-- Whether two lists have equal trees in the same order. -/
def equalAll : List Node → List Node → Bool
  | [], [] => true
  | a :: as, b :: bs => equal a b && equalAll as bs
  | _, _ => false

end

instance : BEq Node := ⟨equal⟩

/-- Whether a part is left out. -/
def isMissing : Node → Bool
  | missing => true
  | _ => false

/-- The names of the sorts of node; an absent node and a list have none. -/
def sort? : Node → Option String
  | missing => none
  | many _ => none
  | literal _ => some "Literal"
  | grouping _ => some "Grouping"
  | unary .. => some "UnaryOp"
  | binary .. => some "BinaryOp"
  | logical .. => some "Logical"
  | reference _ => some "Variable"
  | assign .. => some "Assign"
  | call .. => some "Call"
  | evaluate _ => some "ExprStmt"
  | print _ => some "PrintStmt"
  | declare .. => some "VarDecl"
  | block _ => some "Block"
  | branch .. => some "IfStmt"
  | loop .. => some "WhileStmt"
  | function .. => some "FuncDecl"
  | giveBack .. => some "ReturnStmt"

/-- The line of an expression, for a trace: that of the name, the operator or the closing
parenthesis it is built with.  A literal has none. -/
def line : Node → Json
  | reference name => name.line
  | assign name _ => name.line
  | unary operator _ => operator.line
  | binary _ operator _ => operator.line
  | logical _ operator _ => operator.line
  | call _ paren _ => paren.line
  | grouping inner => inner.line
  | _ => .null

end Node

end LoxLang
