/-
Reading a tree back.

A mark, and a tree of any shape, is what is read from the JSON value that is written for it:
`Mark.ofJson_toJson`, `Node.ofJson_toJson`.  So writing a tree loses nothing, and no tree is
written that cannot be read (`Node.written_reads_back`).
-/
import LoxLang.Tree.Json
import Mathlib.Data.List.Basic

namespace LoxLang

/-! ### Marks -/

namespace Mark

theorem ofJson_toJson (m : Mark) : ofJson m.toJson = .ok m := by
  simp [toJson, ofJson, field, Json.field?, kindOfJson, Kind.ofName?_name, bind, Except.bind,
    pure, Except.pure]

theorem listOfJson_toJson (ms : List Mark) : listOfJson (.array (ms.map toJson)) = .ok ms := by
  rw [listOfJson]
  induction ms with
  | nil => rfl
  | cons m ms ih => simp [ofJson_toJson, ih, bind, Except.bind, pure, Except.pure]

end Mark

namespace Node

/-! ### Fields -/

/-- The fields of an object, with what each of them is as a node. -/
def Fields.of (raw : List (String × Json)) : Fields := ⟨raw, fieldsOfJson raw⟩

namespace Fields

variable {raw : List (String × Json)} {name : String} {j : Json}

theorem node?_of (raw : List (String × Json)) (name : String) :
    (of raw).node? name = (Json.field? raw name).map ofJson := by
  rw [of, node?, Json.field?]
  induction raw with
  | nil => rfl
  | cons field raw ih =>
    rw [fieldsOfJson, List.find?_cons, List.find?_cons]
    cases field.1 == name with
    | true => rfl
    | false => exact ih

theorem node_of (h : Json.field? raw name = some j) : (of raw).node name = ofJson j := by
  rw [node, node?_of, h]
  rfl

theorem optional_of (h : Json.field? raw name = some j) : (of raw).optional name = ofJson j := by
  rw [optional, node?_of, h]
  rfl

theorem mark_of {m : Mark} (h : Json.field? raw name = some m.toJson) :
    (of raw).mark name = .ok m := by
  simp only [mark, of, Mark.field, h, bind, Except.bind, Mark.ofJson_toJson]

theorem marks_of {ms : List Mark}
    (h : Json.field? raw name = some (.array (ms.map Mark.toJson))) :
    (of raw).marks name = .ok ms := by
  simp only [marks, of, Mark.field, h, bind, Except.bind, Mark.listOfJson_toJson]

theorem list_of {nodes : List Node} (h : Json.field? raw name = some (.array (listToJson nodes)))
    (hread : listOfJson (listToJson nodes) = .ok nodes) : (of raw).list name = .ok nodes := by
  have hnode : (of raw).node name = .ok (many nodes) := by
    rw [node_of h, ofJson, hread]
    rfl
  have hfield : Mark.field (of raw).raw name = .ok (.array (listToJson nodes)) := by
    rw [of, Mark.field, h]
  simp only [list, hfield, hnode, bind, Except.bind, pure, Except.pure]

end Fields

/-! ### Trees -/

theorem ofJson_object (raw : List (String × Json)) :
    ofJson (.object raw) = (Fields.of raw).assemble := by
  rw [ofJson, Fields.of]

mutual

/-- Writing a tree and reading it gives the same tree, whatever nodes it is made of. -/
theorem ofJson_toJson : (node : Node) → ofJson node.toJson = .ok node
  | missing => rfl
  | many nodes => by
    rw [toJson, ofJson, listOfJson_listToJson nodes]
    rfl
  | literal _ => rfl
  | grouping inner => by
    rw [toJson, ofJson_object]
    show (do return grouping (← Fields.node _ "expression")) = _
    rw [Fields.node_of (j := inner.toJson) rfl, ofJson_toJson inner]
    rfl
  | unary operator operand => by
    rw [toJson, ofJson_object]
    show (do return unary (← Fields.mark _ "operator") (← Fields.node _ "operand")) = _
    rw [Fields.mark_of (m := operator) rfl, Fields.node_of (j := operand.toJson) rfl,
      ofJson_toJson operand]
    rfl
  | binary left operator right => by
    rw [toJson, ofJson_object]
    show (do
      return binary (← Fields.node _ "left") (← Fields.mark _ "operator")
        (← Fields.node _ "right")) = _
    rw [Fields.node_of (j := left.toJson) rfl, ofJson_toJson left, Fields.mark_of (m := operator) rfl,
      Fields.node_of (j := right.toJson) rfl, ofJson_toJson right]
    rfl
  | logical left operator right => by
    rw [toJson, ofJson_object]
    show (do
      return logical (← Fields.node _ "left") (← Fields.mark _ "operator")
        (← Fields.node _ "right")) = _
    rw [Fields.node_of (j := left.toJson) rfl, ofJson_toJson left, Fields.mark_of (m := operator) rfl,
      Fields.node_of (j := right.toJson) rfl, ofJson_toJson right]
    rfl
  | reference name => by
    rw [toJson, ofJson_object]
    show (do return reference (← Fields.mark _ "name")) = _
    rw [Fields.mark_of (m := name) rfl]
    rfl
  | assign name value => by
    rw [toJson, ofJson_object]
    show (do return assign (← Fields.mark _ "name") (← Fields.node _ "value")) = _
    rw [Fields.mark_of (m := name) rfl, Fields.node_of (j := value.toJson) rfl, ofJson_toJson value]
    rfl
  | call callee paren arguments => by
    rw [toJson, ofJson_object]
    show (do
      return call (← Fields.node _ "callee") (← Fields.mark _ "paren")
        (← Fields.list _ "args")) = _
    rw [Fields.node_of (j := callee.toJson) rfl, ofJson_toJson callee, Fields.mark_of (m := paren) rfl,
      Fields.list_of rfl (listOfJson_listToJson arguments)]
    rfl
  | evaluate expression => by
    rw [toJson, ofJson_object]
    show (do return evaluate (← Fields.node _ "expression")) = _
    rw [Fields.node_of (j := expression.toJson) rfl, ofJson_toJson expression]
    rfl
  | print expression => by
    rw [toJson, ofJson_object]
    show (do return print (← Fields.node _ "expression")) = _
    rw [Fields.node_of (j := expression.toJson) rfl, ofJson_toJson expression]
    rfl
  | declare name initializer => by
    rw [toJson, ofJson_object]
    show (do return declare (← Fields.mark _ "name") (← Fields.optional _ "initializer")) = _
    rw [Fields.mark_of (m := name) rfl, Fields.optional_of (j := initializer.toJson) rfl,
      ofJson_toJson initializer]
    rfl
  | block statements => by
    rw [toJson, ofJson_object]
    show (do return block (← Fields.list _ "statements")) = _
    rw [Fields.list_of rfl (listOfJson_listToJson statements)]
    rfl
  | branch condition thenBranch elseBranch => by
    rw [toJson, ofJson_object]
    show (do
      return branch (← Fields.node _ "condition") (← Fields.node _ "then_branch")
        (← Fields.optional _ "else_branch")) = _
    rw [Fields.node_of (j := condition.toJson) rfl, ofJson_toJson condition,
      Fields.node_of (j := thenBranch.toJson) rfl, ofJson_toJson thenBranch,
      Fields.optional_of (j := elseBranch.toJson) rfl, ofJson_toJson elseBranch]
    rfl
  | loop condition body => by
    rw [toJson, ofJson_object]
    show (do return loop (← Fields.node _ "condition") (← Fields.node _ "body")) = _
    rw [Fields.node_of (j := condition.toJson) rfl, ofJson_toJson condition,
      Fields.node_of (j := body.toJson) rfl, ofJson_toJson body]
    rfl
  | function name params body => by
    rw [toJson, ofJson_object]
    show (do
      return function (← Fields.mark _ "name") (← Fields.marks _ "params")
        (← Fields.list _ "body")) = _
    rw [Fields.mark_of (m := name) rfl, Fields.marks_of
        (show Json.field? _ "params" = some (.array (params.map Mark.toJson)) from rfl),
      Fields.list_of rfl (listOfJson_listToJson body)]
    rfl
  | giveBack keyword value => by
    rw [toJson, ofJson_object]
    show (do return giveBack (← Fields.mark _ "keyword") (← Fields.optional _ "value")) = _
    rw [Fields.mark_of (m := keyword) rfl, Fields.optional_of (j := value.toJson) rfl,
      ofJson_toJson value]
    rfl

/-- Writing some trees and reading them gives the same trees. -/
theorem listOfJson_listToJson : (nodes : List Node) → listOfJson (listToJson nodes) = .ok nodes
  | [] => rfl
  | node :: rest => by
    rw [listToJson, listOfJson, ofJson_toJson node, listOfJson_listToJson rest]
    rfl

end

/-- A tree that is written reads back as it was, whatever it is, and no two trees are written in
the same way. -/
theorem written_reads_back (node : Node) :
    ofJson node.toJson = .ok node ∧ ∀ other : Node, other.toJson = node.toJson → other = node := by
  have hread := ofJson_toJson node
  refine ⟨hread, fun other h => ?_⟩
  rw [← h, ofJson_toJson other] at hread
  injection hread

end Node

end LoxLang
