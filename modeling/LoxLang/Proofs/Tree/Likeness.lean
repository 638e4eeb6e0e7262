/-
Trees that are alike but for the places of their tokens.

A `Likeness` says which tokens are taken for each other: they have the same text, but may stand
in different places.  Two trees are alike (`Node.Like`) if they have the same shape, with the
marks of such tokens in it.  What the tokens are is left open; it may be that they

* have the same index in the tokens of two source texts that differ in layout only;
* are a token and the same one some lines further down;
* are one token of a given source text, so that a tree that is like itself consists of the marks
  of such tokens.

`Node.Like.eq_mapMarks` — if the mark on one side is a function of the mark on the other, so is the
tree.
-/
import LoxLang.Tree.Basic
import Mathlib.Data.List.Forall2

namespace LoxLang

/-- The tokens are the same but for the places where they stand. -/
structure Token.SameText (t u : Token) : Prop where
  kind : t.kind = u.kind
  lexeme : t.lexeme = u.lexeme
  literal : t.literal = u.literal
  terminated : t.terminated = u.terminated

/-- Which tokens are taken for each other. -/
structure Likeness where
  tokens : Token → Token → Prop
  sameText {t u : Token} : tokens t u → t.SameText u

/-- The marks of tokens that are taken for each other. -/
def Likeness.marks (L : Likeness) (m n : Mark) : Prop :=
  ∃ t u, L.tokens t u ∧ t.mark = m ∧ u.mark = n

variable {L : Likeness} {t u : Token} {m n : Mark}

namespace Likeness

theorem marks_of_tokens (h : L.tokens t u) : L.marks t.mark u.mark := ⟨t, u, h, rfl, rfl⟩

theorem kind_of_marks (h : L.marks m n) : m.kind = n.kind := by
  obtain ⟨t, u, htu, rfl, rfl⟩ := h
  exact (L.sameText htu).kind

theorem lexeme_of_marks (h : L.marks m n) : m.lexeme = n.lexeme := by
  obtain ⟨t, u, htu, rfl, rfl⟩ := h
  exact congrArg Json.text (L.sameText htu).lexeme

/-- One token of some tokens, taken for itself. -/
def same (tokens : List Token) : Likeness where
  tokens t u := t = u ∧ t ∈ tokens
  sameText := by
    rintro t _ ⟨rfl, -⟩
    exact ⟨rfl, rfl, rfl, rfl⟩

theorem forall₂_same (tokens : List Token) :
    List.Forall₂ (same tokens).tokens tokens tokens :=
  List.forall₂_same.mpr fun _ ht => ⟨rfl, ht⟩

end Likeness

/-! ### Trees -/

/-- The trees have the same shape, with marks in it that are taken for each other.  The mark of a
call is that of a closing parenthesis, as it is wherever a tree comes from a source text. -/
inductive Node.Like (L : Likeness) : Node → Node → Prop where
  | missing : Like L .missing .missing
  | many {es fs : List Node} (hlength : es.length = fs.length)
      (hs : ∀ e f, (e, f) ∈ es.zip fs → Like L e f) : Like L (.many es) (.many fs)
  | literal {j : Json} : Like L (.literal j) (.literal j)
  | grouping {e f : Node} (h : Like L e f) : Like L (.grouping e) (.grouping f)
  | unary {o p : Mark} {e f : Node} (hop : L.marks o p) (h : Like L e f) :
      Like L (.unary o e) (.unary p f)
  | binary {o p : Mark} {e f g h : Node} (hleft : Like L e f) (hop : L.marks o p)
      (hright : Like L g h) : Like L (.binary e o g) (.binary f p h)
  | logical {o p : Mark} {e f g h : Node} (hleft : Like L e f) (hop : L.marks o p)
      (hright : Like L g h) : Like L (.logical e o g) (.logical f p h)
  | reference {m n : Mark} (hname : L.marks m n) : Like L (.reference m) (.reference n)
  | assign {m n : Mark} {e f : Node} (hname : L.marks m n) (h : Like L e f) :
      Like L (.assign m e) (.assign n f)
  | call {m n : Mark} {e f : Node} {es fs : List Node} (hcallee : Like L e f)
      (hparen : L.marks m n) (hclosing : m.kind = .rightParen) (hlength : es.length = fs.length)
      (hs : ∀ e f, (e, f) ∈ es.zip fs → Like L e f) : Like L (.call e m es) (.call f n fs)
  | evaluate {e f : Node} (h : Like L e f) : Like L (.evaluate e) (.evaluate f)
  | print {e f : Node} (h : Like L e f) : Like L (.print e) (.print f)
  | declare {m n : Mark} {e f : Node} (hname : L.marks m n) (h : Like L e f) :
      Like L (.declare m e) (.declare n f)
  | block {es fs : List Node} (hlength : es.length = fs.length)
      (hs : ∀ e f, (e, f) ∈ es.zip fs → Like L e f) : Like L (.block es) (.block fs)
  | branch {e f e' f' e'' f'' : Node} (h : Like L e f) (h' : Like L e' f') (h'' : Like L e'' f'') :
      Like L (.branch e e' e'') (.branch f f' f'')
  | loop {e f e' f' : Node} (h : Like L e f) (h' : Like L e' f') : Like L (.loop e e') (.loop f f')
  | function {m n : Mark} {ms ns : List Mark} {es fs : List Node} (hname : L.marks m n)
      (hparams : List.Forall₂ L.marks ms ns) (hlength : es.length = fs.length)
      (hs : ∀ e f, (e, f) ∈ es.zip fs → Like L e f) :
      Like L (.function m ms es) (.function n ns fs)
  | giveBack {m n : Mark} {e f : Node} (hword : L.marks m n) (h : Like L e f) :
      Like L (.giveBack m e) (.giveBack n f)

namespace Node

variable {e f : Node} {es fs : List Node}

/-- Two lists of trees that are alike one by one. -/
abbrev AllLike (L : Likeness) : List Node → List Node → Prop := List.Forall₂ (Node.Like L)

theorem AllLike.of_zip (hlength : es.length = fs.length)
    (hs : ∀ e f, (e, f) ∈ es.zip fs → Node.Like L e f) : AllLike L es fs :=
  List.forall₂_iff_zip.mpr ⟨hlength, hs _ _⟩

theorem AllLike.zip (h : AllLike L es fs) :
    es.length = fs.length ∧ ∀ e f, (e, f) ∈ es.zip fs → Node.Like L e f :=
  ⟨h.length_eq, fun _ _ hmem => (List.forall₂_iff_zip.mp h).2 hmem⟩

theorem Like.of_block (h : AllLike L es fs) : Like L (.block es) (.block fs) :=
  .block h.zip.1 h.zip.2

theorem Like.of_call (hcallee : Like L e f) (hparen : L.marks m n) (hclosing : m.kind = .rightParen)
    (h : AllLike L es fs) : Like L (.call e m es) (.call f n fs) :=
  .call hcallee hparen hclosing h.zip.1 h.zip.2

theorem Like.of_function {ms ns : List Mark} (hname : L.marks m n)
    (hparams : List.Forall₂ L.marks ms ns) (h : AllLike L es fs) :
    Like L (.function m ms es) (.function n ns fs) :=
  .function hname hparams h.zip.1 h.zip.2

theorem Like.isMissing_eq (h : Like L e f) : e.isMissing = f.isMissing := by
  cases h <;> rfl

/-- More tokens may be taken for each other. -/
theorem Like.mono {M : Likeness} (hLM : ∀ t u, L.tokens t u → M.tokens t u) (h : Like L e f) :
    Like M e f := by
  have hmarks : ∀ m n, L.marks m n → M.marks m n := by
    rintro m n ⟨t, u, htu, hm, hn⟩
    exact ⟨t, u, hLM t u htu, hm, hn⟩
  induction h with
  | missing => exact .missing
  | many hlength _ ih => exact .many hlength ih
  | literal => exact .literal
  | grouping _ ih => exact .grouping ih
  | unary hop _ ih => exact .unary (hmarks _ _ hop) ih
  | binary _ hop _ ih ih' => exact .binary ih (hmarks _ _ hop) ih'
  | logical _ hop _ ih ih' => exact .logical ih (hmarks _ _ hop) ih'
  | reference hname => exact .reference (hmarks _ _ hname)
  | assign hname _ ih => exact .assign (hmarks _ _ hname) ih
  | call _ hparen hclosing hlength _ ih ihs =>
    exact .call ih (hmarks _ _ hparen) hclosing hlength ihs
  | evaluate _ ih => exact .evaluate ih
  | print _ ih => exact .print ih
  | declare hname _ ih => exact .declare (hmarks _ _ hname) ih
  | block hlength _ ih => exact .block hlength ih
  | branch _ _ _ ih ih' ih'' => exact .branch ih ih' ih''
  | loop _ _ ih ih' => exact .loop ih ih'
  | function hname hparams hlength _ ih =>
    exact .function (hmarks _ _ hname) (hparams.imp hmarks) hlength ih
  | giveBack hword _ ih => exact .giveBack (hmarks _ _ hword) ih

/-! ### Other marks in a tree -/

mutual

/-- The tree with a function applied to all its marks. -/
def mapMarks (g : Mark → Mark) : Node → Node
  | missing => missing
  | many es => many (mapMarksOfAll g es)
  | literal j => literal j
  | grouping e => grouping (mapMarks g e)
  | unary op e => unary (g op) (mapMarks g e)
  | binary e op f => binary (mapMarks g e) (g op) (mapMarks g f)
  | logical e op f => logical (mapMarks g e) (g op) (mapMarks g f)
  | reference name => reference (g name)
  | assign name e => assign (g name) (mapMarks g e)
  | call e paren es => call (mapMarks g e) (g paren) (mapMarksOfAll g es)
  | evaluate e => evaluate (mapMarks g e)
  | print e => print (mapMarks g e)
  | declare name e => declare (g name) (mapMarks g e)
  | block es => block (mapMarksOfAll g es)
  | branch e f h => branch (mapMarks g e) (mapMarks g f) (mapMarks g h)
  | loop e f => loop (mapMarks g e) (mapMarks g f)
  | function name params es => function (g name) (params.map g) (mapMarksOfAll g es)
  | giveBack keyword e => giveBack (g keyword) (mapMarks g e)

/-- The trees with a function applied to all their marks. -/
def mapMarksOfAll (g : Mark → Mark) : List Node → List Node
  | [] => []
  | e :: es => mapMarks g e :: mapMarksOfAll g es

end

theorem mapMarksOfAll_eq (g : Mark → Mark) (es : List Node) :
    mapMarksOfAll g es = es.map (mapMarks g) := by
  induction es with
  | nil => rfl
  | cons e es ih => rw [mapMarksOfAll, ih, List.map_cons]

theorem eq_map_of_forall₂ {α β : Type} {g : α → β} {as : List α} {bs : List β}
    (h : List.Forall₂ (fun a b => b = g a) as bs) : bs = as.map g := by
  have hmap : List.Forall₂ (· = ·) (as.map g) bs :=
    List.forall₂_map_left_iff.mpr (h.imp fun _ _ => Eq.symm)
  rw [List.forall₂_eq_eq_eq] at hmap
  exact hmap.symm

/-- Trees are alike only if one is made from the other, in case the marks are. -/
theorem Like.eq_mapMarks {g : Mark → Mark} (hg : ∀ m n, L.marks m n → n = g m)
    (h : Like L e f) : f = e.mapMarks g := by
  have list {es fs : List Node} (hlength : es.length = fs.length)
      (ih : ∀ e f, (e, f) ∈ es.zip fs → f = e.mapMarks g) : fs = mapMarksOfAll g es := by
    rw [mapMarksOfAll_eq]
    exact eq_map_of_forall₂ (List.forall₂_iff_zip.mpr ⟨hlength, ih _ _⟩)
  induction h with
  | missing => rfl
  | many hlength _ ih => rw [mapMarks, ← list hlength ih]
  | literal => rfl
  | grouping _ ih => rw [mapMarks, ← ih]
  | unary hop _ ih => rw [mapMarks, ← ih, ← hg _ _ hop]
  | binary _ hop _ ih ih' => rw [mapMarks, ← ih, ← hg _ _ hop, ← ih']
  | logical _ hop _ ih ih' => rw [mapMarks, ← ih, ← hg _ _ hop, ← ih']
  | reference hname => rw [mapMarks, ← hg _ _ hname]
  | assign hname _ ih => rw [mapMarks, ← hg _ _ hname, ← ih]
  | call _ hparen _ hlength _ ih ihs =>
    rw [mapMarks, ← ih, ← hg _ _ hparen, ← list hlength ihs]
  | evaluate _ ih => rw [mapMarks, ← ih]
  | print _ ih => rw [mapMarks, ← ih]
  | declare hname _ ih => rw [mapMarks, ← hg _ _ hname, ← ih]
  | block hlength _ ih => rw [mapMarks, ← list hlength ih]
  | branch _ _ _ ih ih' ih'' => rw [mapMarks, ← ih, ← ih', ← ih'']
  | loop _ _ ih ih' => rw [mapMarks, ← ih, ← ih']
  | function hname hparams hlength _ ih =>
    rw [mapMarks, ← hg _ _ hname, ← eq_map_of_forall₂ (hparams.imp hg), ← list hlength ih]
  | giveBack hword _ ih => rw [mapMarks, ← hg _ _ hword, ← ih]

end Node

end LoxLang
