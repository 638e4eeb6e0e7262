/-
Syntax trees as JSON values.

`Node.toJson` writes a tree and `Node.ofJson` reads one.  An object with a `type` is a
node, a list is a list of nodes and null an absent node.  A field that a sort of node does
not have is not looked at; an optional part and the last two fields of a mark may be left
out.  Where a list of nodes or of marks belongs, an empty text or an empty object is taken
for an empty list.

The fields of a node are read in a fixed order, so that of several faults it is always the
same one that is reported.
-/
import LoxLang.Tree.Basic

namespace LoxLang

/-- Why a JSON value is no tree. -/
inductive LoadFault where
  /-- A boolean, a number or a text stands where a node belongs. -/
  | notANode
  /-- A value of a wrong type stands where a mark or a list belongs. -/
  | wrongType
  | missingField (name : String)
  | unknownKind (name : String)
  | unknownSort (name : String)
deriving DecidableEq, Repr

namespace Mark

/-- A mark as a JSON value. -/
def toJson (m : Mark) : Json :=
  .object [("kind", .text m.kind.name), ("lexeme", m.lexeme), ("line", m.line),
    ("column", m.column), ("literal", m.literal), ("terminated", m.terminated)]

/-- The value of a field that must be there. -/
def field (fields : List (String × Json)) (name : String) : Except LoadFault Json :=
  match Json.field? fields name with
  | some j => .ok j
  | none => .error (.missingField name)

/-- The kind that a JSON value names. -/
def kindOfJson : Json → Except LoadFault Kind
  | .text s => match Kind.ofName? s with
    | some k => .ok k
    | none => .error (.unknownKind s)
  | .array _ => .error .wrongType
  | .object _ => .error .wrongType
  | j => .error (.unknownKind j.shown)

/-- The mark that a JSON value holds. -/
def ofJson : Json → Except LoadFault Mark
  | .object fields => do
    let kind ← kindOfJson (← field fields "kind")
    let lexeme ← field fields "lexeme"
    let line ← field fields "line"
    let column ← field fields "column"
    let literal := (Json.field? fields "literal").getD .null
    let terminated := (Json.field? fields "terminated").getD (.bool true)
    return ⟨kind, lexeme, line, column, literal, terminated⟩
  | _ => .error .wrongType

/-- The marks that a JSON value holds. -/
def listOfJson : Json → Except LoadFault (List Mark)
  | .array items => items.mapM ofJson
  | .text s => if s.isEmpty then .ok [] else .error .wrongType
  | .object fields => if fields.isEmpty then .ok [] else .error .wrongType
  | _ => .error .wrongType

end Mark

namespace Node

mutual

/-- A tree as a JSON value. -/
def toJson : Node → Json
  | missing => .null
  | many nodes => .array (listToJson nodes)
  | literal value => .object [("type", .text "Literal"), ("value", value)]
  | grouping inner => .object [("type", .text "Grouping"), ("expression", inner.toJson)]
  | unary operator operand =>
    .object [("type", .text "UnaryOp"), ("operator", operator.toJson),
      ("operand", operand.toJson)]
  | binary left operator right =>
    .object [("type", .text "BinaryOp"), ("left", left.toJson),
      ("operator", operator.toJson), ("right", right.toJson)]
  | logical left operator right =>
    .object [("type", .text "Logical"), ("left", left.toJson),
      ("operator", operator.toJson), ("right", right.toJson)]
  | reference name => .object [("type", .text "Variable"), ("name", name.toJson)]
  | assign name value =>
    .object [("type", .text "Assign"), ("name", name.toJson), ("value", value.toJson)]
  | call callee paren arguments =>
    .object [("type", .text "Call"), ("callee", callee.toJson), ("paren", paren.toJson),
      ("args", .array (listToJson arguments))]
  | evaluate expression =>
    .object [("type", .text "ExprStmt"), ("expression", expression.toJson)]
  | print expression =>
    .object [("type", .text "PrintStmt"), ("expression", expression.toJson)]
  | declare name initializer =>
    .object [("type", .text "VarDecl"), ("name", name.toJson),
      ("initializer", initializer.toJson)]
  | block statements =>
    .object [("type", .text "Block"), ("statements", .array (listToJson statements))]
  | branch condition thenBranch elseBranch =>
    .object [("type", .text "IfStmt"), ("condition", condition.toJson),
      ("then_branch", thenBranch.toJson), ("else_branch", elseBranch.toJson)]
  | loop condition body =>
    .object [("type", .text "WhileStmt"), ("condition", condition.toJson),
      ("body", body.toJson)]
  | function name params body =>
    .object [("type", .text "FuncDecl"), ("name", name.toJson),
      ("params", .array (params.map Mark.toJson)), ("body", .array (listToJson body))]
  | giveBack keyword value =>
    .object [("type", .text "ReturnStmt"), ("keyword", keyword.toJson),
      ("value", value.toJson)]

/-- Some trees as JSON values. -/
def listToJson : List Node → List Json
  | [] => []
  | node :: rest => node.toJson :: listToJson rest

end

/-- The fields of an object, each as it stands and read as a node. -/
structure Fields where
  raw : List (String × Json)
  nodes : List (String × Except LoadFault Node)

namespace Fields

/-- The node in a field. -/
def node? (f : Fields) (name : String) : Option (Except LoadFault Node) :=
  (f.nodes.find? (·.1 == name)).map (·.2)

/-- The node in a field that must be there. -/
def node (f : Fields) (name : String) : Except LoadFault Node :=
  (f.node? name).getD (.error (.missingField name))

/-- The node in a field that may be left out. -/
def optional (f : Fields) (name : String) : Except LoadFault Node :=
  (f.node? name).getD (.ok missing)

/-- The mark in a field. -/
def mark (f : Fields) (name : String) : Except LoadFault Mark := do
  Mark.ofJson (← Mark.field f.raw name)

/-- The marks in a field. -/
def marks (f : Fields) (name : String) : Except LoadFault (List Mark) := do
  Mark.listOfJson (← Mark.field f.raw name)

/-- The nodes in a field. -/
def list (f : Fields) (name : String) : Except LoadFault (List Node) := do
  match ← Mark.field f.raw name with
  | .array _ =>
    match ← f.node name with
    | many nodes => return nodes
    | _ => .error .wrongType
  | .text s => if s.isEmpty then return [] else .error .notANode
  | .object fields => if fields.isEmpty then return [] else .error .notANode
  | _ => .error .wrongType

/-- The node that an object with these fields is. -/
def assemble (f : Fields) : Except LoadFault Node :=
  let sort := (Json.field? f.raw "type").getD .null
  match sort with
  | .text "Literal" => return literal (← Mark.field f.raw "value")
  | .text "Grouping" => return grouping (← f.node "expression")
  | .text "UnaryOp" => return unary (← f.mark "operator") (← f.node "operand")
  | .text "BinaryOp" =>
    return binary (← f.node "left") (← f.mark "operator") (← f.node "right")
  | .text "Logical" =>
    return logical (← f.node "left") (← f.mark "operator") (← f.node "right")
  | .text "Variable" => return reference (← f.mark "name")
  | .text "Assign" => return assign (← f.mark "name") (← f.node "value")
  | .text "Call" => return call (← f.node "callee") (← f.mark "paren") (← f.list "args")
  | .text "ExprStmt" => return evaluate (← f.node "expression")
  | .text "PrintStmt" => return print (← f.node "expression")
  | .text "VarDecl" => return declare (← f.mark "name") (← f.optional "initializer")
  | .text "Block" => return block (← f.list "statements")
  | .text "IfStmt" =>
    return branch (← f.node "condition") (← f.node "then_branch")
      (← f.optional "else_branch")
  | .text "WhileStmt" => return loop (← f.node "condition") (← f.node "body")
  | .text "FuncDecl" =>
    return function (← f.mark "name") (← f.marks "params") (← f.list "body")
  | .text "ReturnStmt" => return giveBack (← f.mark "keyword") (← f.optional "value")
  | sort => .error (.unknownSort sort.shown)

end Fields

mutual

/-- The tree that a JSON value holds. -/
def ofJson : Json → Except LoadFault Node
  | .null => .ok missing
  | .array items => (listOfJson items).map many
  | .object fields => Fields.assemble ⟨fields, fieldsOfJson fields⟩
  | _ => .error .notANode

/-- The trees that some JSON values hold. -/
def listOfJson : List Json → Except LoadFault (List Node)
  | [] => .ok []
  | j :: rest => do
    let node ← ofJson j
    let nodes ← listOfJson rest
    return node :: nodes

/-- The fields of an object, read as nodes.  A field that is no node makes a fault only when
it is asked for. -/
def fieldsOfJson : List (String × Json) → List (String × Except LoadFault Node)
  | [] => []
  | (name, j) :: rest => (name, ofJson j) :: fieldsOfJson rest

end

end Node

end LoxLang
