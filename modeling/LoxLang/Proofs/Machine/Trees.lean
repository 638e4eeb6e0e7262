/-
Trees that make sense to a machine.

`Node.Evaluable` says of a node that it is an expression all through: its operators are ones that
the machine knows, its names are texts, and its literals are scalars.  `Node.Executable` says the
same of a statement, and also that a value is given back only in the body of a function.

* `Program.ofSource_executable` — a program that is read from a source text without an error
  consists of such statements.  This is an induction on its derivation.
-/
import LoxLang.Proofs.Machine.Parts
import LoxLang.Proofs.Reader.ExactGrammar

namespace LoxLang

/-- The mark is a name: its lexeme is a text. -/
def Mark.IsName (m : Mark) : Prop := ∃ s, m.lexeme = .text s

theorem Token.isName_mark (t : Token) : t.mark.IsName := ⟨t.lexeme, rfl⟩

namespace Node

/-- The node can be evaluated. -/
inductive Evaluable : Node → Prop where
  | literal {j : Json} (h : (Value.ofJson j).isScalar) : Evaluable (.literal j)
  | grouping {e : Node} (h : Evaluable e) : Evaluable (.grouping e)
  | unary {op : Mark} {e : Node} (h : Evaluable e) : Evaluable (.unary op e)
  | binary {op : Mark} {l r : Node} (hop : op.kind ∈ binaryOperators) (hl : Evaluable l)
      (hr : Evaluable r) : Evaluable (.binary l op r)
  | logical {op : Mark} {l r : Node} (hl : Evaluable l) (hr : Evaluable r) :
      Evaluable (.logical l op r)
  | reference {name : Mark} (hname : name.IsName) : Evaluable (.reference name)
  | assign {name : Mark} {e : Node} (hname : name.IsName) (h : Evaluable e) :
      Evaluable (.assign name e)
  | call {paren : Mark} {callee : Node} {arguments : List Node} (hcallee : Evaluable callee)
      (harguments : ∀ e ∈ arguments, Evaluable e) : Evaluable (.call callee paren arguments)

/-- The node can be executed, inside or outside the body of a function. -/
inductive Executable : Bool → Node → Prop where
  | evaluate {inside : Bool} {e : Node} (h : Evaluable e) : Executable inside (.evaluate e)
  | print {inside : Bool} {e : Node} (h : Evaluable e) : Executable inside (.print e)
  | declare {inside : Bool} {name : Mark} {e : Node} (hname : name.IsName)
      (h : ∀ f ∈ e.ifPresent, Evaluable f) : Executable inside (.declare name e)
  | block {inside : Bool} {es : List Node} (h : ∀ e ∈ es, Executable inside e) :
      Executable inside (.block es)
  | branch {inside : Bool} {e f g : Node} (he : Evaluable e) (hf : Executable inside f)
      (hg : ∀ h ∈ g.ifPresent, Executable inside h) : Executable inside (.branch e f g)
  | loop {inside : Bool} {e f : Node} (he : Evaluable e) (hf : Executable inside f) :
      Executable inside (.loop e f)
  | function {inside : Bool} {name : Mark} {params : List Mark} {es : List Node}
      (hname : name.IsName) (hparams : ∀ m ∈ params, m.IsName)
      (hbody : ∀ e ∈ es, Executable true e) : Executable inside (.function name params es)
  | giveBack {keyword : Mark} {e : Node} (h : ∀ f ∈ e.ifPresent, Evaluable f) :
      Executable true (.giveBack keyword e)

theorem mem_ifPresent_iff {e f : Node} : f ∈ e.ifPresent ↔ e.isMissing = false ∧ f = e := by
  rw [ifPresent]
  cases e.isMissing
  · simp
  · simp

theorem self_mem_ifPresent {e : Node} (h : e ≠ .missing) : e ∈ e.ifPresent := by
  refine mem_ifPresent_iff.mpr ⟨?_, rfl⟩
  cases e with
  | missing => exact absurd rfl h
  | _ => rfl

theorem Evaluable.operand {node e : Node} (h : node.Evaluable) (he : e ∈ node.operands) :
    e.Evaluable := by
  cases h with
  | literal | reference => exact absurd he List.not_mem_nil
  | grouping h | unary h | assign _ h =>
    obtain rfl := List.mem_singleton.mp he
    exact h
  | binary _ hl hr | logical hl hr =>
    rcases List.mem_pair.mp he with rfl | rfl
    · exact hl
    · exact hr
  | call hcallee harguments =>
    rcases List.mem_cons.mp he with rfl | he
    · exact hcallee
    · exact harguments e he

theorem Executable.operand {inside : Bool} {node e : Node} (h : node.Executable inside)
    (he : e ∈ node.operands) : e.Evaluable := by
  cases h with
  | block | function => exact absurd he List.not_mem_nil
  | evaluate h | print h | branch h | loop h =>
    obtain rfl := List.mem_singleton.mp he
    exact h
  | declare _ h | giveBack h => exact h e he

theorem Executable.branch_of_mem {inside : Bool} {node e : Node} (h : node.Executable inside)
    (he : e ∈ node.branches) : e.Executable inside := by
  cases h with
  | evaluate | print | declare | function | giveBack => exact absurd he List.not_mem_nil
  | block h => exact h e he
  | branch _ hf hg =>
    rcases List.mem_cons.mp he with rfl | he
    · exact hf
    · exact hg e he
  | loop _ hf =>
    obtain rfl := List.mem_singleton.mp he
    exact hf

theorem Executable.isStatement {inside : Bool} {node : Node} (h : node.Executable inside) :
    node.isStatement = true := by
  cases h <;> rfl

theorem Executable.isName_of_declare {inside : Bool} {name : Mark} {e : Node}
    (h : (Node.declare name e).Executable inside) : name.IsName := by
  cases h with
  | declare hname _ => exact hname

theorem Executable.names_of_function {inside : Bool} {name : Mark} {params : List Mark}
    {es : List Node} (h : (Node.function name params es).Executable inside) :
    name.IsName ∧ ∀ m ∈ params, m.IsName := by
  cases h with
  | function hname hparams _ => exact ⟨hname, hparams⟩

theorem Executable.body_of_function {inside : Bool} {name : Mark} {params : List Mark}
    {es : List Node} (h : (Node.function name params es).Executable inside) :
    ∀ e ∈ es, e.Executable true := by
  cases h with
  | function _ _ hbody => exact hbody

theorem Executable.inside_of_giveBack {inside : Bool} {keyword : Mark} {e : Node}
    (h : (Node.giveBack keyword e).Executable inside) : inside = true := by
  cases h
  rfl

end Node

/-! ### Trees that have been read -/

namespace Grammar

open Node

theorem literal?_isScalar {t : Token} {j : Json} (ht : t.Lexed) (h : literal? t = some j) :
    (Value.ofJson j).isScalar := by
  obtain ⟨kind, lexeme, p, rfl⟩ := ht
  cases kind with
  | falseWord | trueWord | nilWord | number =>
    cases h
    rfl
  | string =>
    obtain ⟨-, hj⟩ := Option.ite_none_right_eq_some.mp h
    cases hj
    rfl
  | _ => cases h

/-- What is proved of the tree of each sort of expression. -/
def Tier.Sensible : Tier → Node → Prop
  | .arguments, e => ∀ es, e = .many es → ∀ f ∈ es, f.Evaluable
  | .chain ls, e => ls <:+ levels → e.Evaluable
  | _, e => e.Evaluable

/-- An operator that evaluates both sides is one that the machine knows. -/
theorem Level.build_evaluable {level : Level} (hlevel : level ∈ levels) {op : Token} {e f : Node}
    (hop : op.kind ∈ level.operators) (he : e.Evaluable) (hf : f.Evaluable) :
    (level.build e op.mark f).Evaluable := by
  -- There are finitely many levels to look through.
  have hknown : ∀ level ∈ levels, level.isLazy = false → level.operators ⊆ binaryOperators := by
    decide
  rw [Level.build]
  cases hlazy : level.isLazy with
  | true => exact .logical he hf
  | false => exact .binary (hknown level hlevel hlazy hop) he hf

theorem Expression.sensible {tier : Tier} {ts : List Token} {e : Node} (h : Expression tier ts e)
    (hts : ∀ t ∈ ts, t.Lexed) : tier.Sensible e := by
  induction h with
  | assignment _ _ _ ih => exact .assign (Token.isName_mark _) (ih fun t ht => hts t (by simp [ht]))
  | disjunction _ ih => exact ih hts (List.suffix_refl _)
  | operator _ hop _ ihl ihr =>
    intro hsuffix
    have hlevel := hsuffix.subset (List.mem_cons_self ..)
    have hrest := (List.suffix_cons _ _).trans hsuffix
    exact Level.build_evaluable hlevel hop (ihl (fun t ht => hts t (by simp [ht])) hsuffix)
      (ihr (fun t ht => hts t (by simp [ht])) hrest)
  | tighter _ ih => exact fun hsuffix => ih hts ((List.suffix_cons _ _).trans hsuffix)
  | operand _ ih => exact fun _ => ih hts
  | prefixed _ _ ih => exact .unary (ih fun t ht => hts t (by simp [ht]))
  | called _ ih => exact ih hts
  | callWithout _ _ _ ih =>
    exact .call (ih fun t ht => hts t (by simp [ht])) fun _ he => absurd he List.not_mem_nil
  | callWith _ _ _ _ _ ih ihs =>
    exact .call (ih fun t ht => hts t (by simp [ht])) (ihs (fun t ht => hts t (by simp [ht])) _ rfl)
  | uncalled _ ih => exact ih hts
  | literal hj => exact .literal (literal?_isScalar (hts _ (by simp)) hj)
  | reference _ => exact .reference (Token.isName_mark _)
  | grouping _ _ _ ih => exact .grouping (ih fun t ht => hts t (by simp [ht]))
  | lastArgument _ ih =>
    intro es hes
    cases hes
    exact fun f hf => List.mem_singleton.mp hf ▸ ih hts
  | argument _ _ _ ih ihs =>
    intro es hes
    cases hes
    exact List.forall_mem_cons.mpr ⟨ih fun t ht => hts t (by simp [ht]),
      ihs (fun t ht => hts t (by simp [ht])) _ rfl⟩

theorem Optional.sensible {ts : List Token} {e : Node} (h : Optional ts e)
    (hts : ∀ t ∈ ts, t.Lexed) : ∀ f ∈ e.ifPresent, f.Evaluable := by
  intro f hf
  obtain ⟨hpresent, rfl⟩ := mem_ifPresent_iff.mp hf
  cases h with
  | absent => cases hpresent
  | present h => exact h.sensible hts

theorem Variable.sensible {ts : List Token} {e : Node} {inside : Bool} (h : Variable ts e)
    (hts : ∀ t ∈ ts, t.Lexed) : e.Executable inside := by
  cases h with
  | bare => exact .declare (Token.isName_mark _) fun f hf => absurd hf List.not_mem_nil
  | initialized _ _ h =>
    refine .declare (Token.isName_mark _) fun f hf => ?_
    obtain ⟨-, rfl⟩ := mem_ifPresent_iff.mp hf
    exact h.sensible fun t ht => hts t (by simp [ht])

theorem Parameters.sensible {ts : List Token} {params : List Mark} (h : Parameters ts params) :
    ∀ m ∈ params, m.IsName := by
  induction h with
  | last => exact List.forall_mem_singleton.mpr (Token.isName_mark _)
  | more _ _ _ ih => exact List.forall_mem_cons.mpr ⟨Token.isName_mark _, ih⟩

theorem OptionalParameters.sensible {ts : List Token} {params : List Mark}
    (h : OptionalParameters ts params) : ∀ m ∈ params, m.IsName := by
  cases h with
  | absent => exact fun m hm => absurd hm List.not_mem_nil
  | present h => exact h.sensible

theorem Initializer.sensible {ts : List Token} {e : Node} {inside : Bool} (h : Initializer ts e)
    (hts : ∀ t ∈ ts, t.Lexed) : ∀ f ∈ e.ifPresent, f.Executable inside := by
  intro f hf
  obtain ⟨hpresent, rfl⟩ := mem_ifPresent_iff.mp hf
  cases h with
  | absent => cases hpresent
  | declare _ h => exact h.sensible fun t ht => hts t (by simp [ht])
  | expression h => exact .evaluate (h.sensible fun t ht => hts t (by simp [ht]))

theorem thenIncrement_executable {inside : Bool} {body increment : Node}
    (hbody : body.Executable inside) (h : ∀ f ∈ increment.ifPresent, f.Evaluable) :
    (thenIncrement body increment).Executable inside := by
  unfold thenIncrement
  split
  · exact hbody
  · rename_i hpresent
    have hincrement : (Node.evaluate increment).Executable inside :=
      .evaluate (h _ (self_mem_ifPresent hpresent))
    exact .block (List.forall_mem_cons.mpr ⟨hbody, List.forall_mem_singleton.mpr hincrement⟩)

theorem orTrue_evaluable {condition : Node} (h : ∀ f ∈ condition.ifPresent, f.Evaluable) :
    (orTrue condition).Evaluable := by
  unfold orTrue
  split
  · exact .literal rfl
  · rename_i hpresent
    exact h _ (self_mem_ifPresent hpresent)

theorem afterInitializer_executable {inside : Bool} {loop initializer : Node}
    (hloop : loop.Executable inside) (h : ∀ f ∈ initializer.ifPresent, f.Executable inside) :
    (afterInitializer loop initializer).Executable inside := by
  unfold afterInitializer
  split
  · exact hloop
  · rename_i hpresent
    have hinitializer := h _ (self_mem_ifPresent hpresent)
    exact .block (List.forall_mem_cons.mpr ⟨hinitializer, List.forall_mem_singleton.mpr hloop⟩)

/-- What is proved of the tree of each sort of statement. -/
def Form.Sensible (inside : Bool) : Form → Node → Prop
  | .declarations, e => ∀ es, e = .many es → ∀ f ∈ es, f.Executable inside
  | _, e => e.Executable inside

theorem Statement.sensible {d : Nat} {form : Form} {ts : List Token} {e : Node}
    (h : Statement d form ts e) (hts : ∀ t ∈ ts, t.Lexed) :
    form.Sensible (decide (d ≠ 0)) e := by
  induction h with
  | noDeclaration =>
    intro es hes
    cases hes
    exact fun f hf => absurd hf List.not_mem_nil
  | moreDeclarations _ _ ih ihs =>
    intro es hes
    cases hes
    exact List.forall_mem_cons.mpr ⟨ih fun t ht => hts t (by simp [ht]),
      ihs (fun t ht => hts t (by simp [ht])) _ rfl⟩
  | function _ _ _ hparams _ _ _ _ _ ih =>
    have hbody := ih (fun t ht => hts t (by simp [ht])) _ rfl
    -- The body is inside a function, wherever the declaration is.
    rw [decide_eq_true (Nat.succ_ne_zero _)] at hbody
    exact .function (Token.isName_mark _) hparams.sensible hbody
  | declare _ h => exact h.sensible fun t ht => hts t (by simp [ht])
  | statement _ ih => exact ih hts
  | expression h => exact .evaluate (h.sensible fun t ht => hts t (by simp [ht]))
  | print _ h => exact .print (h.sensible fun t ht => hts t (by simp [ht]))
  | ifThen _ _ h _ _ ih =>
    exact .branch (h.sensible fun t ht => hts t (by simp [ht]))
      (ih fun t ht => hts t (by simp [ht])) fun f hf => absurd hf List.not_mem_nil
  | ifElse _ _ h _ _ _ _ ih ih' =>
    refine .branch (h.sensible fun t ht => hts t (by simp [ht]))
      (ih fun t ht => hts t (by simp [ht])) fun f hf => ?_
    obtain ⟨-, rfl⟩ := mem_ifPresent_iff.mp hf
    exact ih' fun t ht => hts t (by simp [ht])
  | whileLoop _ _ h _ _ ih =>
    exact .loop (h.sensible fun t ht => hts t (by simp [ht])) (ih fun t ht => hts t (by simp [ht]))
  | forLoop _ _ he hf _ hg _ _ ih =>
    have hcondition := orTrue_evaluable (hf.sensible fun t ht => hts t (by simp [ht]))
    have hbody := thenIncrement_executable (ih fun t ht => hts t (by simp [ht]))
      (hg.sensible fun t ht => hts t (by simp [ht]))
    exact afterInitializer_executable (.loop hcondition hbody)
      (he.sensible fun t ht => hts t (by simp [ht]))
  | giveBack _ h _ hinside =>
    rw [decide_eq_true hinside]
    exact .giveBack (h.sensible fun t ht => hts t (by simp [ht]))
  | block _ _ _ ih => exact .block (ih (fun t ht => hts t (by simp [ht])) _ rfl)

end Grammar

/-- What is read from a source text without an error can be executed outside every function. -/
theorem Program.ofSource_executable {source : String} (hok : (Program.ofSource source).ok) :
    ∀ e ∈ (Program.ofSource source).statements, e.Executable false := by
  have herrors : (Program.ofTokens (tokensOf source)).errors = [] := List.isEmpty_iff.mp hok
  have hprogram := Program.ofTokens_sound (tokensOf_endsOnce source) herrors
  have hlexed : ∀ t ∈ tokensOf source, t.Lexed := fun t ht => tokensOf_lexed ht
  rw [Program.ofSource]
  generalize tokensOf source = tokens at hprogram hlexed ⊢
  generalize (Program.ofTokens tokens).statements = es at hprogram ⊢
  cases hprogram with
  | intro h _ => exact h.sensible (fun t ht => hlexed t (List.mem_append_left _ ht)) _ rfl

end LoxLang
