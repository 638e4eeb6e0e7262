/-
Trees that can be written and read back as text.

The fields of a node have different names, and so have those of a mark, so that all the objects in
the JSON value of a tree do if it is so with the literals in it.  `Program.ofSource_distinct`: the
literals of a program that is read from a source text are numbers, texts and the like, so its tree
is such a value.  This is an induction on the derivation of the program.
-/
import LoxLang.Proofs.Json.RoundTrip
import LoxLang.Proofs.Reader.ExactGrammar
import LoxLang.Tree.Json

namespace LoxLang

open Json Node

-- Marks are not taken apart: `Token.Lexed.mark_distinct` is all that is needed of them.
attribute [local simp] toJson listToJson Distinct DistinctItems DistinctFields

theorem Token.Lexed.literal_distinct {t : Token} (ht : t.Lexed) : t.literal.Distinct := by
  obtain ⟨kind, lexeme, p, rfl⟩ := ht
  cases kind <;> trivial

/-- The mark of a token holds no object. -/
theorem Token.Lexed.mark_distinct {t : Token} (ht : t.Lexed) : t.mark.toJson.Distinct := by
  simp [Mark.toJson, Token.mark, ht.literal_distinct]

namespace Grammar

variable {ts : List Token} {e f : Node}

theorem literal?_distinct {t : Token} {j : Json} (ht : t.Lexed) (h : literal? t = some j) :
    j.Distinct := by
  unfold literal? at h
  split at h
  · cases h
    trivial
  · cases h
    trivial
  · cases h
    trivial
  · cases h
    exact ht.literal_distinct
  · obtain ⟨-, hj⟩ := Option.ite_none_right_eq_some.mp h
    cases hj
    exact ht.literal_distinct
  · cases h

theorem Level.build_distinct {level : Level} {op : Mark} (he : e.toJson.Distinct)
    (hop : op.toJson.Distinct) (hf : f.toJson.Distinct) :
    (level.build e op f).toJson.Distinct := by
  rw [Level.build]
  cases level.isLazy with
  | true => simp [he, hop, hf]
  | false => simp [he, hop, hf]

theorem Expression.distinct {tier : Tier} (h : Expression tier ts e)
    (hts : ∀ t ∈ ts, t.Lexed) : e.toJson.Distinct := by
  induction h with
  | assignment _ _ _ ih =>
    simp only [List.forall_mem_cons] at hts
    simp [hts.1.mark_distinct, ih hts.2.2]
  | disjunction _ ih | tighter _ ih | operand _ ih | called _ ih | uncalled _ ih => exact ih hts
  | operator _ _ _ ih ih' =>
    simp only [List.forall_mem_append, List.forall_mem_cons] at hts
    obtain ⟨hts, hop, hus⟩ := hts
    exact Level.build_distinct (ih hts) hop.mark_distinct (ih' hus)
  | prefixed _ _ ih =>
    simp only [List.forall_mem_cons] at hts
    simp [hts.1.mark_distinct, ih hts.2]
  | callWithout _ _ _ ih =>
    simp only [List.forall_mem_append, List.forall_mem_cons] at hts
    obtain ⟨hts, -, hparen, -⟩ := hts
    simp [hparen.mark_distinct, ih hts]
  | callWith _ _ _ _ _ ih ih' =>
    simp only [List.forall_mem_append, List.forall_mem_cons] at hts
    obtain ⟨⟨hts, -, hus⟩, hparen, -⟩ := hts
    have hes : DistinctItems (listToJson _) := ih' hus
    simp [hparen.mark_distinct, ih hts, hes]
  | literal hj =>
    have ht := List.forall_mem_singleton.mp hts
    simp [literal?_distinct ht hj]
  | reference _ =>
    have ht := List.forall_mem_singleton.mp hts
    simp [ht.mark_distinct]
  | grouping _ _ _ ih =>
    simp only [List.forall_mem_append, List.forall_mem_cons] at hts
    simp [ih hts.1.2]
  | lastArgument _ ih => exact ⟨ih hts, trivial⟩
  | argument _ _ _ ih ih' =>
    simp only [List.forall_mem_append, List.forall_mem_cons] at hts
    exact ⟨ih hts.1, ih' hts.2.2⟩

theorem Optional.distinct (h : Optional ts e) (hts : ∀ t ∈ ts, t.Lexed) :
    e.toJson.Distinct := by
  cases h with
  | absent => trivial
  | present h => exact h.distinct hts

theorem Variable.distinct (h : Variable ts e) (hts : ∀ t ∈ ts, t.Lexed) :
    e.toJson.Distinct := by
  cases h with
  | bare =>
    simp only [List.forall_mem_cons] at hts
    simp [hts.1.mark_distinct]
  | initialized _ _ h =>
    simp only [List.forall_mem_cons, List.forall_mem_append, List.cons_append] at hts
    simp [hts.1.mark_distinct, h.distinct hts.2.2.1]

theorem Parameters.distinct {params : List Mark} (h : Parameters ts params)
    (hts : ∀ t ∈ ts, t.Lexed) : DistinctItems (params.map Mark.toJson) := by
  induction h with
  | last => exact ⟨(List.forall_mem_singleton.mp hts).mark_distinct, trivial⟩
  | more _ _ _ ih =>
    simp only [List.forall_mem_cons] at hts
    exact ⟨hts.1.mark_distinct, ih hts.2.2⟩

theorem OptionalParameters.distinct {params : List Mark} (h : OptionalParameters ts params)
    (hts : ∀ t ∈ ts, t.Lexed) : DistinctItems (params.map Mark.toJson) := by
  cases h with
  | absent => trivial
  | present h => exact h.distinct hts

theorem Initializer.distinct (h : Initializer ts e) (hts : ∀ t ∈ ts, t.Lexed) :
    e.toJson.Distinct := by
  cases h with
  | absent => trivial
  | declare _ h =>
    simp only [List.forall_mem_cons] at hts
    exact h.distinct hts.2
  | expression h =>
    simp only [List.forall_mem_append] at hts
    simp [h.distinct hts.1]

theorem thenIncrement_distinct (he : e.toJson.Distinct) (hf : f.toJson.Distinct) :
    (thenIncrement e f).toJson.Distinct := by
  unfold thenIncrement
  split
  · exact he
  · simp [he, hf]

theorem orTrue_distinct (he : e.toJson.Distinct) : (orTrue e).toJson.Distinct := by
  unfold orTrue
  split
  · simp
  · exact he

theorem afterInitializer_distinct (he : e.toJson.Distinct) (hf : f.toJson.Distinct) :
    (afterInitializer e f).toJson.Distinct := by
  unfold afterInitializer
  split
  · exact he
  · simp [he, hf]

theorem Statement.distinct {d : Nat} {form : Form} (h : Statement d form ts e)
    (hts : ∀ t ∈ ts, t.Lexed) : e.toJson.Distinct := by
  induction h with
  | noDeclaration => trivial
  | moreDeclarations _ _ ih ih' =>
    simp only [List.forall_mem_append] at hts
    exact ⟨ih hts.1, ih' hts.2⟩
  | function _ _ _ hparams _ _ _ _ _ ih =>
    simp only [List.forall_mem_append, List.forall_mem_cons, List.cons_append] at hts
    obtain ⟨-, hname, -, ⟨hts, -, -, hus⟩, -⟩ := hts
    have hbody : DistinctItems (listToJson _) := ih hus
    simp [hname.mark_distinct, hparams.distinct hts, hbody]
  | declare _ h =>
    simp only [List.forall_mem_cons] at hts
    exact h.distinct hts.2
  | statement _ ih => exact ih hts
  | expression h =>
    simp only [List.forall_mem_append] at hts
    simp [h.distinct hts.1]
  | print _ h =>
    simp only [List.forall_mem_append, List.forall_mem_cons, List.cons_append] at hts
    simp [h.distinct hts.2.1]
  | ifThen _ _ h _ _ ih =>
    simp only [List.forall_mem_append, List.forall_mem_cons, List.cons_append] at hts
    obtain ⟨-, -, hts, -, hus⟩ := hts
    simp [h.distinct hts, ih hus]
  | ifElse _ _ h _ _ _ _ ih ih' =>
    simp only [List.forall_mem_append, List.forall_mem_cons, List.cons_append] at hts
    obtain ⟨-, -, ⟨hts, -, hus⟩, -, hvs⟩ := hts
    simp [h.distinct hts, ih hus, ih' hvs]
  | whileLoop _ _ h _ _ ih =>
    simp only [List.forall_mem_append, List.forall_mem_cons, List.cons_append] at hts
    obtain ⟨-, -, hts, -, hus⟩ := hts
    simp [h.distinct hts, ih hus]
  | forLoop _ _ he hf _ hg _ _ ih =>
    simp only [List.forall_mem_append, List.forall_mem_cons, List.cons_append] at hts
    obtain ⟨-, -, ⟨⟨hts, hus⟩, -, hvs⟩, -, hws⟩ := hts
    have hbody := thenIncrement_distinct (ih hws) (hg.distinct hvs)
    refine afterInitializer_distinct ?_ (he.distinct hts)
    simp [orTrue_distinct (hf.distinct hus), hbody]
  | giveBack _ h _ _ =>
    simp only [List.forall_mem_append, List.forall_mem_cons, List.cons_append] at hts
    simp [hts.1.mark_distinct, h.distinct hts.2.1]
  | block _ _ _ ih =>
    simp only [List.forall_mem_append, List.forall_mem_cons, List.cons_append] at hts
    have hes : DistinctItems (listToJson _) := ih hts.2.1
    simp [hes]

end Grammar

/-- The tree of a program that is read from a source text without an error has a JSON value in
which no object has two fields of one name. -/
theorem Program.ofSource_distinct {source : String} (hok : (Program.ofSource source).ok) :
    (many (Program.ofSource source).statements).toJson.Distinct := by
  have herrors : (Program.ofTokens (tokensOf source)).errors = [] := List.isEmpty_iff.mp hok
  have hprogram := Program.ofTokens_sound (tokensOf_endsOnce source) herrors
  have hlexed : ∀ t ∈ tokensOf source, t.Lexed := fun t ht => tokensOf_lexed ht
  rw [Program.ofSource]
  generalize tokensOf source = tokens at hprogram hlexed ⊢
  generalize (Program.ofTokens tokens).statements = es at hprogram ⊢
  cases hprogram with
  | intro h _ => exact h.distinct fun t ht => hlexed t (List.mem_append_left _ ht)

end LoxLang
