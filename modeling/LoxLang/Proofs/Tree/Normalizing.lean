/-
Loading a tree and dumping it.

More JSON values are loaded than are ever dumped: there may be fields that nothing looks at, some
fields may be left out, and an empty text or object may stand for an empty list.  `Node.partsOf`
lists what each sort of node has, and `Mark.parts` what a mark has.  From these lists alone, and not
from how a tree is loaded or dumped, come

* `Json.normal` — the value with, at each node and mark, just the fields of its sort in their order,
  those left out set to what stands for them, and each list of nodes or marks a list;
* `Json.InForm` — a value in which there is nothing to be done but to put fields in order.

`Node.toJson_of_ofJson`: what is loaded is dumped as its normal form.  That is an induction on the
value, with one case for each sort of node, where `Part.filled` is what becomes of one field.
`Json.InForm.same_normal`: in a value in form only the order of fields can change.  Both are put
together in `loading_then_dumping_normalizes`.
-/
import LoxLang.Proofs.Tree.RoundTrip
import Mathlib.Data.List.Forall2

namespace LoxLang

open Json (field?)

/-! ### The parts of nodes and marks -/

/-- What a field of a node holds. -/
inductive Holding where
  /-- Any value at all. -/
  | value
  | mark
  | marks
  | node
  | nodes
deriving DecidableEq

/-- A field of a node, with the value that stands for it where it is left out, if it may be. -/
structure Part where
  name : String
  holding : Holding
  absent : Option Json

namespace Part

/-- A field that must be there. -/
def must (name : String) (holding : Holding) : Part := ⟨name, holding, none⟩

/-- A field that may be left out. -/
def may (name : String) (holding : Holding) (absent : Json) : Part := ⟨name, holding, some absent⟩

end Part

/-- The fields of each sort of node other than the one that names the sort. -/
def Node.partsOf : String → Option (List Part)
  | "Literal" => some [.must "value" .value]
  | "Grouping" => some [.must "expression" .node]
  | "UnaryOp" => some [.must "operator" .mark, .must "operand" .node]
  | "BinaryOp" => some [.must "left" .node, .must "operator" .mark, .must "right" .node]
  | "Logical" => some [.must "left" .node, .must "operator" .mark, .must "right" .node]
  | "Variable" => some [.must "name" .mark]
  | "Assign" => some [.must "name" .mark, .must "value" .node]
  | "Call" => some [.must "callee" .node, .must "paren" .mark, .must "args" .nodes]
  | "ExprStmt" => some [.must "expression" .node]
  | "PrintStmt" => some [.must "expression" .node]
  | "VarDecl" => some [.must "name" .mark, .may "initializer" .node .null]
  | "Block" => some [.must "statements" .nodes]
  | "IfStmt" =>
    some [.must "condition" .node, .must "then_branch" .node, .may "else_branch" .node .null]
  | "WhileStmt" => some [.must "condition" .node, .must "body" .node]
  | "FuncDecl" => some [.must "name" .mark, .must "params" .marks, .must "body" .nodes]
  | "ReturnStmt" => some [.must "keyword" .mark, .may "value" .node .null]
  | _ => none

/-- The fields of a mark. -/
def Mark.parts : List Part :=
  [.must "kind" .value, .must "lexeme" .value, .must "line" .value, .must "column" .value,
    .may "literal" .value .null, .may "terminated" .value (.bool true)]

/-! ### The normal form -/

namespace Json

/-- The normal form of a value in the place of a mark. -/
def normalMark : Json → Json
  | .object raw =>
    .object (Mark.parts.filterMap fun p => ((field? raw p.name).or p.absent).map (p.name, ·))
  | j => j

end Json

/-- The normal form of a field, from its value and the normal form of that as a node. -/
def Holding.take : Holding → Json → Json → Json
  | .value, j, _ => j
  | .mark, j, _ => j.normalMark
  | .marks, .array items, _ => .array (items.map Json.normalMark)
  | .marks, _, _ => .array []
  | .node, _, asNode => asNode
  | .nodes, .array _, asNode => asNode
  | .nodes, _, _ => .array []

namespace Json

/-- The sort that the fields of an object name, and the parts of a node of that sort. -/
def sortOf (raw : List (String × Json)) : Option (String × List Part) :=
  match field? raw "type" with
  | some (.text sort) => (Node.partsOf sort).map (sort, ·)
  | _ => none

/-- The parts of a node, from the values of its fields with their normal forms as nodes. -/
def arrange (parts : List Part) (each : List (String × Json × Json)) : List (String × Json) :=
  parts.filterMap fun p =>
    (((each.lookup p.name).map fun (j, asNode) => p.holding.take j asNode).or p.absent).map
      (p.name, ·)

mutual

/-- The normal form of a value in the place of a node. -/
def normal : Json → Json
  | .array items => .array (normalAll items)
  | .object raw =>
    match sortOf raw with
    | some (sort, parts) => .object (("type", .text sort) :: arrange parts (normalEach raw))
    | none => .object raw
  | j => j

/-- The normal forms of some values in the places of nodes. -/
def normalAll : List Json → List Json
  | [] => []
  | j :: rest => j.normal :: normalAll rest

/-- The fields of an object, each with its value and the normal form of that as a node. -/
def normalEach : List (String × Json) → List (String × Json × Json)
  | [] => []
  | (name, j) :: rest => (name, j, j.normal) :: normalEach rest

end

variable {raw : List (String × Json)} {name sort : String} {j : Json} {items : List Json}
  {parts : List Part}

theorem normalAll_eq_map (items : List Json) : normalAll items = items.map normal := by
  induction items with
  | nil => rfl
  | cons j rest ih => rw [normalAll, ih, List.map_cons]

theorem lookup_normalEach (raw : List (String × Json)) (name : String) :
    (normalEach raw).lookup name = (field? raw name).map fun j => (j, j.normal) := by
  induction raw with
  | nil => rfl
  | cons field raw ih =>
    obtain ⟨n, j⟩ := field
    rw [normalEach, List.lookup_cons, field?, List.find?_cons]
    rw [field?] at ih
    by_cases hn : n = name
    · simp [hn]
    · rw [beq_eq_false_iff_ne.mpr hn, beq_eq_false_iff_ne.mpr (Ne.symm hn)]
      exact ih

end Json

/-- The normal form of the value of a field. -/
def Holding.normal (holding : Holding) (j : Json) : Json := holding.take j j.normal

/-- The value of a part in normal form, unless it is left out and must not be. -/
def Part.filled (p : Part) (raw : List (String × Json)) : Option Json :=
  ((field? raw p.name).map p.holding.normal).or p.absent

namespace Json

variable {raw : List (String × Json)} {name sort : String} {j : Json} {items : List Json}
  {parts : List Part}

/-- The parts of a node that are there or have something that stands for them. -/
def fill (parts : List Part) (raw : List (String × Json)) : List (String × Json) :=
  parts.filterMap fun p => (p.filled raw).map (p.name, ·)

theorem normal_node (hsort : field? raw "type" = some (.text sort))
    (hparts : Node.partsOf sort = some parts) :
    normal (.object raw) = .object (("type", .text sort) :: fill parts raw) := by
  have hsortOf : sortOf raw = some (sort, parts) := by
    rw [sortOf, hsort]
    simp [hparts]
  simp only [normal, hsortOf, arrange, lookup_normalEach, Option.map_map]
  rfl

theorem fill_cons {p : Part} (hp : p.filled raw = some j) (parts : List Part) :
    fill (p :: parts) raw = (p.name, j) :: fill parts raw := by
  rw [fill, List.filterMap_cons, hp]
  rfl

end Json

/-! ### What is loaded -/

section Loading

variable {ε β γ : Type}

theorem bind_eq_ok {x : Except ε β} {f : β → Except ε γ} {c : γ} :
    x >>= f = .ok c ↔ ∃ b, x = .ok b ∧ f b = .ok c := by
  cases x <;> simp [bind, Except.bind]

theorem pure_eq_ok {b c : β} : (pure b : Except ε β) = .ok c ↔ b = c := by
  simp [pure, Except.pure]

end Loading

namespace Mark

variable {raw : List (String × Json)} {name : String} {j : Json} {m : Mark} {ms : List Mark}
  {items : List Json}

theorem field_eq_ok : field raw name = .ok j ↔ field? raw name = some j := by
  rw [field]
  cases field? raw name <;> simp

/-- A kind is named by its name only. -/
theorem kindOfJson_eq_ok {kind : Kind} (h : kindOfJson j = .ok kind) : j = .text kind.name := by
  cases j with
  | text s =>
    rw [kindOfJson] at h
    cases hkind : Kind.ofName? s with
    | none =>
      rw [hkind] at h
      cases h
    | some k =>
      rw [hkind] at h
      cases h
      have hname := List.find?_some hkind
      rw [beq_iff_eq.mp hname]
  | _ => cases h

/-- A mark that is loaded is dumped in normal form. -/
theorem toJson_of_ofJson (h : ofJson j = .ok m) : m.toJson = j.normalMark := by
  cases j with
  | object raw =>
    simp only [ofJson, bind_eq_ok, pure_eq_ok, field_eq_ok] at h
    obtain ⟨k, hk, kind, hkind, lexeme, hlexeme, line, hline, column, hcolumn, rfl⟩ := h
    rw [kindOfJson_eq_ok hkind] at hk
    have hdefault (name : String) (d : Json) : (field? raw name).or (some d) =
        some ((field? raw name).getD d) := by
      cases field? raw name <;> rfl
    simp [toJson, Json.normalMark, parts, Part.must, Part.may, hk, hlexeme, hline, hcolumn,
      hdefault]
  | _ => cases h

theorem mapM_ofJson (h : items.mapM ofJson = .ok ms) :
    ms.map toJson = items.map Json.normalMark := by
  induction items generalizing ms with
  | nil =>
    cases h
    rfl
  | cons j rest ih =>
    rw [List.mapM_cons] at h
    simp only [bind_eq_ok, pure_eq_ok] at h
    obtain ⟨m, hm, ms, hms, rfl⟩ := h
    rw [List.map_cons, List.map_cons, toJson_of_ofJson hm, ih hms]

theorem toJson_of_listOfJson (h : listOfJson j = .ok ms) :
    .array (ms.map toJson) = Holding.marks.normal j := by
  cases j with
  | array items =>
    rw [mapM_ofJson h]
    rfl
  | text _ | object _ =>
    rw [listOfJson] at h
    split at h
    · cases h
      rfl
    · cases h
  | _ => cases h

end Mark

namespace Node.Fields

open Json (fill_cons normal_node)

variable {raw : List (String × Json)} {name : String} {j : Json} {n : Node} {m : Mark}

/-- What is loaded from the fields is dumped in normal form. -/
def Normalizes (raw : List (String × Json)) : Prop :=
  ∀ name j n, field? raw name = some j → ofJson j = .ok n → n.toJson = j.normal

theorem field_of_eq_ok : Mark.field (of raw).raw name = .ok j ↔ field? raw name = some j :=
  Mark.field_eq_ok

theorem filled_must {holding : Holding} (h : field? raw name = some j) :
    (Part.must name holding).filled raw = some (holding.normal j) := by
  rw [Part.must, Part.filled, h]
  rfl

theorem filled_value (h : Mark.field (of raw).raw name = .ok j) :
    (Part.must name .value).filled raw = some j :=
  filled_must (field_of_eq_ok.mp h)

theorem filled_mark (h : (of raw).mark name = .ok m) :
    (Part.must name .mark).filled raw = some m.toJson := by
  rw [mark] at h
  obtain ⟨j, hj, hm⟩ := bind_eq_ok.mp h
  rw [filled_must (field_of_eq_ok.mp hj), Mark.toJson_of_ofJson hm]
  rfl

theorem filled_marks {ms : List Mark} (h : (of raw).marks name = .ok ms) :
    (Part.must name .marks).filled raw = some (.array (ms.map Mark.toJson)) := by
  rw [marks] at h
  obtain ⟨j, hj, hms⟩ := bind_eq_ok.mp h
  rw [filled_must (field_of_eq_ok.mp hj), Mark.toJson_of_listOfJson hms]

theorem filled_node (ih : Normalizes raw) (h : (of raw).node name = .ok n) :
    (Part.must name .node).filled raw = some n.toJson := by
  rw [node, node?_of] at h
  cases hj : field? raw name with
  | none =>
    rw [hj] at h
    cases h
  | some j =>
    rw [hj] at h
    rw [filled_must hj, ih name j n hj h]
    rfl

theorem filled_optional (ih : Normalizes raw) (h : (of raw).optional name = .ok n) :
    (Part.may name .node .null).filled raw = some n.toJson := by
  rw [optional, node?_of] at h
  rw [Part.may, Part.filled]
  cases hj : field? raw name with
  | none =>
    rw [hj] at h
    cases h
    rfl
  | some j =>
    rw [hj] at h
    rw [ih name j n hj h]
    rfl

theorem filled_list {nodes : List Node} (ih : Normalizes raw) (h : (of raw).list name = .ok nodes) :
    (Part.must name .nodes).filled raw = some (.array (listToJson nodes)) := by
  rw [list] at h
  obtain ⟨j, hj, h⟩ := bind_eq_ok.mp h
  have hj := field_of_eq_ok.mp hj
  cases j with
  | array items =>
    obtain ⟨n, hn, h⟩ := bind_eq_ok.mp h
    rw [node_of hj] at hn
    cases n with
    | many nodes' =>
      cases h
      rw [filled_must hj, ← toJson, ih name _ _ hj hn]
      rfl
    | _ => cases h
  | text _ | object _ =>
    dsimp only at h
    split at h
    · cases h
      exact filled_must hj
    · cases h
  | _ => cases h

/-- The node that some fields make is dumped in the normal form of their object. -/
theorem toJson_of_assemble (ih : Normalizes raw) (h : (of raw).assemble = .ok n) :
    n.toJson = (Json.object raw).normal := by
  have hsort {sort : String} (h : (field? raw "type").getD .null = .text sort) :
      field? raw "type" = some (.text sort) := by
    cases hj : field? raw "type" with
    | none =>
      rw [hj] at h
      cases h
    | some j =>
      rw [hj] at h
      exact congrArg some h
  unfold assemble at h
  dsimp only at h
  split at h
  · simp only [bind_eq_ok, pure_eq_ok] at h
    obtain ⟨v, hv, rfl⟩ := h
    rw [normal_node (hsort ‹_›) rfl, fill_cons (filled_value hv)]
    rfl
  · simp only [bind_eq_ok, pure_eq_ok] at h
    obtain ⟨e, he, rfl⟩ := h
    rw [normal_node (hsort ‹_›) rfl, fill_cons (filled_node ih he)]
    rfl
  · simp only [bind_eq_ok, pure_eq_ok] at h
    obtain ⟨op, hop, e, he, rfl⟩ := h
    rw [normal_node (hsort ‹_›) rfl, fill_cons (filled_mark hop), fill_cons (filled_node ih he)]
    rfl
  · simp only [bind_eq_ok, pure_eq_ok] at h
    obtain ⟨e, he, op, hop, f, hf, rfl⟩ := h
    rw [normal_node (hsort ‹_›) rfl, fill_cons (filled_node ih he), fill_cons (filled_mark hop),
      fill_cons (filled_node ih hf)]
    rfl
  · simp only [bind_eq_ok, pure_eq_ok] at h
    obtain ⟨e, he, op, hop, f, hf, rfl⟩ := h
    rw [normal_node (hsort ‹_›) rfl, fill_cons (filled_node ih he), fill_cons (filled_mark hop),
      fill_cons (filled_node ih hf)]
    rfl
  · simp only [bind_eq_ok, pure_eq_ok] at h
    obtain ⟨name, hname, rfl⟩ := h
    rw [normal_node (hsort ‹_›) rfl, fill_cons (filled_mark hname)]
    rfl
  · simp only [bind_eq_ok, pure_eq_ok] at h
    obtain ⟨name, hname, e, he, rfl⟩ := h
    rw [normal_node (hsort ‹_›) rfl, fill_cons (filled_mark hname), fill_cons (filled_node ih he)]
    rfl
  · simp only [bind_eq_ok, pure_eq_ok] at h
    obtain ⟨e, he, paren, hparen, es, hes, rfl⟩ := h
    rw [normal_node (hsort ‹_›) rfl, fill_cons (filled_node ih he), fill_cons (filled_mark hparen),
      fill_cons (filled_list ih hes)]
    rfl
  · simp only [bind_eq_ok, pure_eq_ok] at h
    obtain ⟨e, he, rfl⟩ := h
    rw [normal_node (hsort ‹_›) rfl, fill_cons (filled_node ih he)]
    rfl
  · simp only [bind_eq_ok, pure_eq_ok] at h
    obtain ⟨e, he, rfl⟩ := h
    rw [normal_node (hsort ‹_›) rfl, fill_cons (filled_node ih he)]
    rfl
  · simp only [bind_eq_ok, pure_eq_ok] at h
    obtain ⟨name, hname, e, he, rfl⟩ := h
    rw [normal_node (hsort ‹_›) rfl, fill_cons (filled_mark hname),
      fill_cons (filled_optional ih he)]
    rfl
  · simp only [bind_eq_ok, pure_eq_ok] at h
    obtain ⟨es, hes, rfl⟩ := h
    rw [normal_node (hsort ‹_›) rfl, fill_cons (filled_list ih hes)]
    rfl
  · simp only [bind_eq_ok, pure_eq_ok] at h
    obtain ⟨e, he, f, hf, g, hg, rfl⟩ := h
    rw [normal_node (hsort ‹_›) rfl, fill_cons (filled_node ih he), fill_cons (filled_node ih hf),
      fill_cons (filled_optional ih hg)]
    rfl
  · simp only [bind_eq_ok, pure_eq_ok] at h
    obtain ⟨e, he, f, hf, rfl⟩ := h
    rw [normal_node (hsort ‹_›) rfl, fill_cons (filled_node ih he), fill_cons (filled_node ih hf)]
    rfl
  · simp only [bind_eq_ok, pure_eq_ok] at h
    obtain ⟨name, hname, params, hparams, es, hes, rfl⟩ := h
    rw [normal_node (hsort ‹_›) rfl, fill_cons (filled_mark hname),
      fill_cons (filled_marks hparams), fill_cons (filled_list ih hes)]
    rfl
  · simp only [bind_eq_ok, pure_eq_ok] at h
    obtain ⟨keyword, hkeyword, e, he, rfl⟩ := h
    rw [normal_node (hsort ‹_›) rfl, fill_cons (filled_mark hkeyword),
      fill_cons (filled_optional ih he)]
    rfl
  · cases h

end Node.Fields

namespace Node

mutual

/-- A tree that is loaded is dumped as the normal form of what it was loaded from. -/
theorem toJson_of_ofJson : (j : Json) → (n : Node) → ofJson j = .ok n → n.toJson = j.normal
  | .null, n, h => by
    cases h
    rfl
  | .array items, n, h => by
    rw [ofJson] at h
    cases hnodes : listOfJson items with
    | error fault =>
      rw [hnodes] at h
      cases h
    | ok nodes =>
      rw [hnodes] at h
      cases h
      rw [toJson, Json.normal, listToJson_of_listOfJson items nodes hnodes]
  | .object raw, n, h => by
    rw [ofJson_object] at h
    exact Fields.toJson_of_assemble (normalizes raw) h
  | .bool _, n, h => nomatch h
  | .integer _, n, h => nomatch h
  | .number _, n, h => nomatch h
  | .text _, n, h => nomatch h

theorem listToJson_of_listOfJson : (items : List Json) → (nodes : List Node) →
    listOfJson items = .ok nodes → listToJson nodes = Json.normalAll items
  | [], nodes, h => by
    cases h
    rfl
  | j :: rest, nodes, h => by
    rw [listOfJson] at h
    simp only [bind_eq_ok, pure_eq_ok] at h
    obtain ⟨n, hn, ns, hns, rfl⟩ := h
    rw [listToJson, Json.normalAll, toJson_of_ofJson j n hn, listToJson_of_listOfJson rest ns hns]

theorem normalizes : (raw : List (String × Json)) → Fields.Normalizes raw
  | [], name, j, n, hj, h => nomatch hj
  | (name', j') :: rest, name, j, n, hj, h => by
    rw [field?, List.find?_cons] at hj
    cases hname : name' == name with
    | true =>
      rw [hname] at hj
      cases hj
      exact toJson_of_ofJson j' n h
    | false =>
      rw [hname] at hj
      exact normalizes rest name j n hj h

end

end Node

/-! ### Values in form -/

/-- A mark with each of its fields and no others. -/
def Json.MarkInForm : Json → Prop
  | .object raw => (raw.map (·.1)).Perm (Mark.parts.map (·.name))
  | _ => False

/-- The value is of the form that the field has when it is dumped. -/
def Holding.Fits : Holding → Json → Prop
  | .value, _ => True
  | .mark, j => j.MarkInForm
  | .marks, .array items => ∀ j ∈ items, j.MarkInForm
  | .marks, _ => False
  | .node, _ => True
  | .nodes, .array _ => True
  | .nodes, _ => False

namespace Json

/-- A value in the place of a node in which each node and each mark has each of its fields and no
others, and each list of nodes or marks is a list. -/
inductive InForm : Json → Prop
  | absent : InForm .null
  | list {items : List Json} (each : ∀ j ∈ items, InForm j) : InForm (.array items)
  | node {raw : List (String × Json)} {sort : String} {parts : List Part}
      (sorted : field? raw "type" = some (.text sort)) (table : Node.partsOf sort = some parts)
      (names : (raw.map (·.1)).Perm ("type" :: parts.map (·.name)))
      (fits : ∀ p ∈ parts, ∀ j, field? raw p.name = some j → p.holding.Fits j)
      (nodes : ∀ p ∈ parts, p.holding = .node ∨ p.holding = .nodes →
        ∀ j, field? raw p.name = some j → InForm j) :
      InForm (.object raw)

/-- Two values that differ at most in the order of fields. -/
inductive Same : Json → Json → Prop
  | refl (j : Json) : Same j j
  | array {items items' : List Json} (each : List.Forall₂ Same items items') :
      Same (.array items) (.array items')
  | object {raw raw' : List (String × Json)} (names : (raw.map (·.1)).Perm (raw'.map (·.1)))
      (fields : ∀ name j j', field? raw name = some j → field? raw' name = some j' → Same j j') :
      Same (.object raw) (.object raw')

variable {raw : List (String × Json)} {name : String} {j k : Json} {items : List Json}
  {parts : List Part}

theorem mem_of_field? (h : field? raw name = some j) : (name, j) ∈ raw := by
  obtain ⟨⟨n, k⟩, hk, rfl⟩ := Option.map_eq_some_iff.mp h
  have hname := List.find?_some hk
  rw [← beq_iff_eq.mp hname]
  exact List.mem_of_find?_eq_some hk

theorem exists_field? (h : name ∈ raw.map (·.1)) : ∃ j, field? raw name = some j := by
  refine Option.isSome_iff_exists.mp ?_
  rw [field?, Option.isSome_map, List.find?_isSome]
  obtain ⟨⟨n, j⟩, hmem, rfl⟩ := List.mem_map.mp h
  exact ⟨_, hmem, beq_self_eq_true _⟩

theorem mem_fill :
    (name, j) ∈ fill parts raw ↔ ∃ p ∈ parts, p.name = name ∧ p.filled raw = some j := by
  simp [fill, List.mem_filterMap, and_comm]

theorem fill_names (h : ∀ p ∈ parts, ∃ j, p.filled raw = some j) :
    (fill parts raw).map (·.1) = parts.map (·.name) := by
  induction parts with
  | nil => rfl
  | cons p parts ih =>
    obtain ⟨⟨j, hj⟩, h⟩ := List.forall_mem_cons.mp h
    rw [fill_cons hj, List.map_cons, List.map_cons, ih h]

namespace Same

/-- A change to the values of a list that keeps each of them the same. -/
theorem array_map {f : Json → Json} (h : ∀ j ∈ items, Same (f j) j) :
    Same (.array (items.map f)) (.array items) := by
  refine .array ?_
  rw [List.forall₂_map_left_iff, List.forall₂_same]
  exact h

/-- An object that has its parts and no others is the same when these are put into normal form, if
so is each of them. -/
theorem object_fill (head : List (String × Json)) (hhead : ∀ x ∈ head, field? raw x.1 = some x.2)
    (hnames : (raw.map (·.1)).Perm (head.map (·.1) ++ parts.map (·.name)))
    (hparts : ∀ p ∈ parts, ∀ j, field? raw p.name = some j → Same (p.holding.normal j) j) :
    Same (.object (head ++ fill parts raw)) (.object raw) := by
  have hfilled {p : Part} {j : Json} (h : field? raw p.name = some j) :
      p.filled raw = some (p.holding.normal j) := by
    rw [Part.filled, h]
    rfl
  have hthere : ∀ p ∈ parts, ∃ j, p.filled raw = some j := fun p hp => by
    obtain ⟨j, hj⟩ := exists_field? (hnames.mem_iff.mpr (List.mem_append_right _
      (List.mem_map_of_mem hp)))
    exact ⟨_, hfilled hj⟩
  refine .object ?_ ?_
  · rw [List.map_append, fill_names hthere]
    exact hnames.symm
  · intro name j k hj hk
    rcases List.mem_append.mp (mem_of_field? hj) with hmem | hmem
    · have hj' : field? raw name = some j := hhead _ hmem
      rw [hk] at hj'
      cases hj'
      exact .refl j
    · obtain ⟨p, hp, rfl, hj'⟩ := mem_fill.mp hmem
      rw [hfilled hk] at hj'
      cases hj'
      exact hparts p hp k hk

end Same

/-! ### Values in form are the same as their normal forms -/

/-- The fields of a mark hold any values. -/
theorem holding_of_mem_parts : ∀ p ∈ Mark.parts, p.holding = .value := by decide

theorem normalMark_object (raw : List (String × Json)) :
    normalMark (.object raw) = .object (fill Mark.parts raw) := by
  rw [normalMark, fill]
  refine congrArg _ (List.filterMap_congr fun p hp => ?_)
  have hnormal : p.holding.normal = id := by
    rw [holding_of_mem_parts p hp]
    rfl
  rw [Part.filled, hnormal, Option.map_id]
  rfl

theorem MarkInForm.same_normalMark (h : j.MarkInForm) : Same j.normalMark j := by
  cases j with
  | object raw =>
    rw [normalMark_object, ← List.nil_append (fill Mark.parts raw)]
    refine Same.object_fill [] (by simp) h fun p hp k _ => ?_
    rw [holding_of_mem_parts p hp]
    exact .refl k
  | _ => cases h

/-- What fits a field is the same in normal form, if so it is in the place of a node. -/
theorem same_of_fits {holding : Holding} (h : holding.Fits j)
    (hnode : holding = .node ∨ holding = .nodes → Same j.normal j) :
    Same (holding.normal j) j := by
  cases holding with
  | value => exact .refl j
  | mark => exact MarkInForm.same_normalMark h
  | marks =>
    cases j with
    | array items => exact .array_map fun j hj => (h j hj).same_normalMark
    | _ => cases h
  | node => exact hnode (.inl rfl)
  | nodes =>
    cases j with
    | array items => exact hnode (.inr rfl)
    | _ => cases h

/-- In a value in form nothing changes but the order of fields. -/
theorem InForm.same_normal (h : j.InForm) : Same j.normal j := by
  induction h with
  | absent => exact .refl .null
  | list _ ih =>
    rw [normal, normalAll_eq_map]
    exact .array_map ih
  | @node raw sort parts sorted table names fits _ ih =>
    rw [normal_node sorted table]
    exact Same.object_fill [("type", .text sort)] (by simpa using sorted) names
      fun p hp j hj => same_of_fits (fits p hp j hj) fun hnode => ih p hp hnode j hj

end Json

/-! ### What is dumped is in form -/

/-- The fields of a node have different names, of which none is that of the field for the sort. -/
theorem Node.partsOf_nodup {sort : String} {parts : List Part} (h : partsOf sort = some parts) :
    ("type" :: parts.map (·.name)).Nodup := by
  unfold partsOf at h
  split at h
  all_goals cases h
  all_goals decide

/-- The value of a part, in form as far as it holds nodes. -/
structure Part.Shown (p : Part) (x : String × Json) : Prop where
  name : p.name = x.1
  fits : p.holding.Fits x.2
  nodes : p.holding = .node ∨ p.holding = .nodes → x.2.InForm

namespace Part.Shown

theorem of_value (name : String) (j : Json) : (Part.must name .value).Shown (name, j) :=
  ⟨rfl, trivial, by simp [must]⟩

theorem of_mark (name : String) (m : Mark) : (Part.must name .mark).Shown (name, m.toJson) :=
  ⟨rfl, .refl _, by simp [must]⟩

theorem of_marks (name : String) (ms : List Mark) :
    (Part.must name .marks).Shown (name, .array (ms.map Mark.toJson)) :=
  ⟨rfl, List.forall_mem_map.mpr fun m _ => .refl _, by simp [must]⟩

theorem of_node {j : Json} (name : String) (h : j.InForm) :
    (Part.must name .node).Shown (name, j) :=
  ⟨rfl, trivial, fun _ => h⟩

theorem of_optional {j : Json} (name : String) (h : j.InForm) :
    (Part.may name .node .null).Shown (name, j) :=
  ⟨rfl, trivial, fun _ => h⟩

theorem of_nodes {js : List Json} (name : String) (h : ∀ j ∈ js, j.InForm) :
    (Part.must name .nodes).Shown (name, .array js) :=
  ⟨rfl, trivial, fun _ => .list h⟩

end Part.Shown

theorem Json.field?_cons (x : String × Json) (rest : List (String × Json)) (name : String) :
    field? (x :: rest) name = if x.1 = name then some x.2 else field? rest name := by
  rw [field?, List.find?_cons]
  by_cases hx : x.1 = name
  · simp [hx]
  · rw [beq_eq_false_iff_ne.mpr hx, if_neg hx]
    rfl

/-- The value of a field is that of the part of this name, as no two parts have one name. -/
theorem Part.Shown.of_field? {parts : List Part} {values : List (String × Json)}
    (h : List.Forall₂ Part.Shown parts values) (hnodup : (parts.map (·.name)).Nodup) :
    ∀ p ∈ parts, ∀ j, field? values p.name = some j → p.Shown (p.name, j) := by
  induction h with
  | nil => exact fun p hp => nomatch hp
  | @cons q x parts values hq _ ih =>
    rw [List.map_cons, List.nodup_cons] at hnodup
    intro p hp j hj
    rw [Json.field?_cons] at hj
    rcases List.mem_cons.mp hp with rfl | hp
    · rw [if_pos hq.name.symm] at hj
      cases hj
      rwa [hq.name]
    · rw [if_neg fun hx => hnodup.1 (hq.name.trans hx ▸ List.mem_map_of_mem hp)] at hj
      exact ih hnodup.2 p hp j hj

theorem Json.InForm.of_parts {sort : String} {parts : List Part} {values : List (String × Json)}
    (table : Node.partsOf sort = some parts) (h : List.Forall₂ Part.Shown parts values) :
    InForm (.object (("type", .text sort) :: values)) := by
  have hnodup := Node.partsOf_nodup table
  have hnames : values.map (·.1) = parts.map (·.name) := by
    rw [eq_comm, ← List.forall₂_eq_eq_eq, List.forall₂_map_left_iff, List.forall₂_map_right_iff]
    exact h.imp fun _ _ hp => hp.name
  have hshown : ∀ p ∈ parts, ∀ j, field? (("type", .text sort) :: values) p.name = some j →
      p.Shown (p.name, j) := by
    intro p hp j hj
    have hne : "type" ≠ p.name := fun hp' =>
      (List.nodup_cons.mp hnodup).1 (hp' ▸ List.mem_map_of_mem hp)
    rw [Json.field?_cons, if_neg hne] at hj
    exact Part.Shown.of_field? h hnodup.of_cons p hp j hj
  exact .node rfl table (.cons "type" (.of_eq hnames)) (fun p hp j hj => (hshown p hp j hj).fits)
    fun p hp hnode j hj => (hshown p hp j hj).nodes hnode

namespace Node

open Part.Shown

mutual

/-- What is dumped is in form. -/
theorem inForm_toJson : (n : Node) → n.toJson.InForm
  | missing => .absent
  | many nodes => .list (inForm_listToJson nodes)
  | literal v => .of_parts rfl (.cons (of_value "value" v) .nil)
  | grouping e => .of_parts rfl (.cons (of_node "expression" (inForm_toJson e)) .nil)
  | unary op e =>
    .of_parts rfl (.cons (of_mark "operator" op) (.cons (of_node "operand" (inForm_toJson e)) .nil))
  | binary e op f =>
    .of_parts rfl (.cons (of_node "left" (inForm_toJson e))
      (.cons (of_mark "operator" op) (.cons (of_node "right" (inForm_toJson f)) .nil)))
  | logical e op f =>
    .of_parts rfl (.cons (of_node "left" (inForm_toJson e))
      (.cons (of_mark "operator" op) (.cons (of_node "right" (inForm_toJson f)) .nil)))
  | reference name => .of_parts rfl (.cons (of_mark "name" name) .nil)
  | assign name e =>
    .of_parts rfl (.cons (of_mark "name" name) (.cons (of_node "value" (inForm_toJson e)) .nil))
  | call e paren es =>
    .of_parts rfl (.cons (of_node "callee" (inForm_toJson e))
      (.cons (of_mark "paren" paren) (.cons (of_nodes "args" (inForm_listToJson es)) .nil)))
  | evaluate e => .of_parts rfl (.cons (of_node "expression" (inForm_toJson e)) .nil)
  | print e => .of_parts rfl (.cons (of_node "expression" (inForm_toJson e)) .nil)
  | declare name e =>
    .of_parts rfl (.cons (of_mark "name" name)
      (.cons (of_optional "initializer" (inForm_toJson e)) .nil))
  | block es => .of_parts rfl (.cons (of_nodes "statements" (inForm_listToJson es)) .nil)
  | branch e f g =>
    .of_parts rfl (.cons (of_node "condition" (inForm_toJson e))
      (.cons (of_node "then_branch" (inForm_toJson f))
        (.cons (of_optional "else_branch" (inForm_toJson g)) .nil)))
  | loop e f =>
    .of_parts rfl (.cons (of_node "condition" (inForm_toJson e))
      (.cons (of_node "body" (inForm_toJson f)) .nil))
  | function name params es =>
    .of_parts rfl (.cons (of_mark "name" name)
      (.cons (of_marks "params" params) (.cons (of_nodes "body" (inForm_listToJson es)) .nil)))
  | giveBack keyword e =>
    .of_parts rfl (.cons (of_mark "keyword" keyword)
      (.cons (of_optional "value" (inForm_toJson e)) .nil))

theorem inForm_listToJson : (nodes : List Node) → ∀ j ∈ listToJson nodes, j.InForm
  | [] => fun _ hj => nomatch hj
  | n :: rest => List.forall_mem_cons.mpr ⟨inForm_toJson n, inForm_listToJson rest⟩

end

/-! ### All together -/

/-- **Loading and dumping puts a value into normal form and does nothing else.**  A value that is
loaded as a tree is dumped as its normal form, which is in form; what was in form before is the
same, up to the order of fields; and what has been dumped once is dumped again as it is. -/
theorem loading_then_dumping_normalizes (j : Json) (n : Node) (h : ofJson j = .ok n) :
    n.toJson = j.normal ∧ j.normal.InForm ∧ (j.InForm → Json.Same n.toJson j) ∧
      j.normal.normal = j.normal := by
  have hdumped : n.toJson = j.normal := toJson_of_ofJson j n h
  refine ⟨hdumped, hdumped ▸ inForm_toJson n, fun hform => hdumped ▸ hform.same_normal, ?_⟩
  rw [← hdumped, ← toJson_of_ofJson n.toJson n (ofJson_toJson n)]

/-- A conditional with a field too many, without `else`, with an empty text for the statements of a
block, and with a mark of which the last two fields are left out. -/
theorem loading_then_dumping_normalizes_of_conditional :
    let mark (more : List (String × Json)) : Json :=
      .object ([("kind", .text "IDENTIFIER"), ("lexeme", .text "a"), ("line", .integer 1),
        ("column", .integer 4)] ++ more)
    let given : Json := .object [("note", .integer 7),
      ("then_branch", .object [("type", .text "Block"), ("statements", .text "")]),
      ("condition", .object [("name", mark []), ("type", .text "Variable")]),
      ("type", .text "IfStmt")]
    let dumped : Json := .object [("type", .text "IfStmt"), ("condition", .object [
      ("type", .text "Variable"), ("name", mark [("literal", .null), ("terminated", .bool true)])]),
      ("then_branch", .object [("type", .text "Block"), ("statements", .array [])]),
      ("else_branch", .null)]
    ∃ n, ofJson given = .ok n ∧ n.toJson = dumped ∧ given.normal = dumped := by
  intro mark given dumped
  have hgiven : ofJson given = .ok (.branch
      (.reference ⟨.identifier, .text "a", .integer 1, .integer 4, .null, .bool true⟩) (.block [])
      .missing) := rfl
  obtain ⟨hdumped, -⟩ := loading_then_dumping_normalizes given _ hgiven
  exact ⟨_, hgiven, rfl, hdumped.symm⟩

end Node

end LoxLang
