/-
Programs that are joined by line breaks.

A program reaches from its first token to its last, without regard to what comes after it: no string
is left open (`Grammar.Program.stringsEnd`), and an `else` at the beginning of the next text is not
there, as it begins no declaration.  So derivations of programs are put together
(`Grammar.Program.append`), and

* `Program.ofSource_joined` — the statements of the joined texts are those of the texts, each one
  below the lines of the texts before it.
-/
import LoxLang.Proofs.Reader.ExactGrammar
import LoxLang.Proofs.Reader.Parallel
import LoxLang.Proofs.Token.Joining

namespace LoxLang

/-! ### Strings in a program -/

namespace StringsEnd

variable {t : Token} {ts us : List Token} {kind : Kind}

theorem nil : StringsEnd [] := fun _ h => absurd h List.not_mem_nil

theorem append (hts : StringsEnd ts) (hus : StringsEnd us) : StringsEnd (ts ++ us) :=
  List.forall_mem_append.mpr ⟨hts, hus⟩

/-- A token of a kind of its own is no string. -/
theorem cons (ht : t.kind = kind) (h : StringsEnd ts) (hkind : kind ≠ .string) :
    StringsEnd (t :: ts) :=
  List.forall_mem_cons.mpr ⟨fun hstring => absurd (ht.symm.trans hstring) hkind, h⟩

theorem single (ht : t.kind = kind) (hkind : kind ≠ .string) : StringsEnd [t] := cons ht nil hkind

end StringsEnd

namespace Grammar

variable {ts us : List Token} {e : Node} {es fs : List Node}

/-- The levels of operators are those of the language. -/
def Tier.Known : Tier → Prop
  | .chain rest => rest ⊆ levels
  | _ => True

theorem not_mem_operators {level : Level} (h : level ∈ levels) : .string ∉ level.operators := by
  have hall : ∀ level ∈ levels, .string ∉ level.operators := by decide
  exact hall level h

theorem literal?_stringsEnd {t : Token} {j : Json} (h : literal? t = some j) : StringsEnd [t] := by
  intro u hu hstring
  obtain rfl := List.mem_singleton.mp hu
  rw [literal?, hstring] at h
  exact (Option.ite_none_right_eq_some.mp h).1

theorem Expression.stringsEnd {tier : Tier} (h : Expression tier ts e) (htier : tier.Known) :
    StringsEnd ts := by
  induction h with
  | assignment hname hequal _ ih => exact .cons hname (.cons hequal (ih trivial) nofun) nofun
  | disjunction _ ih => exact ih (List.Subset.refl _)
  | operator _ hop _ ih ih' =>
    obtain ⟨hlevel, hrest⟩ := List.cons_subset.mp htier
    refine (ih htier).append (.cons rfl (ih' hrest) fun hstring => ?_)
    rw [hstring] at hop
    exact not_mem_operators hlevel hop
  | tighter _ ih => exact ih (List.cons_subset.mp htier).2
  | operand _ ih | called _ ih | uncalled _ ih | lastArgument _ ih => exact ih trivial
  | prefixed hop _ ih =>
    rcases hop with hop | hop
    · exact .cons hop (ih trivial) nofun
    · exact .cons hop (ih trivial) nofun
  | callWithout _ hleft hright ih =>
    exact (ih trivial).append (.cons hleft (.single hright nofun) nofun)
  | callWith _ hleft _ _ hright ih ih' =>
    exact ((ih trivial).append (.cons hleft (ih' trivial) nofun)).append (.single hright nofun)
  | literal hj => exact literal?_stringsEnd hj
  | reference hname => exact .single hname nofun
  | grouping hleft _ hright ih =>
    exact .cons hleft ((ih trivial).append (.single hright nofun)) nofun
  | argument _ hcomma _ ih ih' => exact (ih trivial).append (.cons hcomma (ih' trivial) nofun)

theorem Optional.stringsEnd (h : Optional ts e) : StringsEnd ts := by
  cases h with
  | absent => exact .nil
  | present h => exact h.stringsEnd trivial

theorem Variable.stringsEnd (h : Variable ts e) : StringsEnd ts := by
  cases h with
  | bare hname hsemicolon => exact .cons hname (.single hsemicolon nofun) nofun
  | initialized hname hequal value hsemicolon =>
    have hvalue := (value.stringsEnd trivial).append (.single hsemicolon nofun)
    exact .cons hname (.cons hequal hvalue nofun) nofun

theorem Parameters.stringsEnd {params : List Mark} (h : Parameters ts params) : StringsEnd ts := by
  induction h with
  | last hname => exact .single hname nofun
  | more hname hcomma _ ih => exact .cons hname (.cons hcomma ih nofun) nofun

theorem OptionalParameters.stringsEnd {params : List Mark} (h : OptionalParameters ts params) :
    StringsEnd ts := by
  cases h with
  | absent => exact .nil
  | present h => exact h.stringsEnd

theorem Initializer.stringsEnd (h : Initializer ts e) : StringsEnd ts := by
  cases h with
  | absent hsemicolon => exact .single hsemicolon nofun
  | declare hword h => exact .cons hword h.stringsEnd nofun
  | expression h hsemicolon => exact (h.stringsEnd trivial).append (.single hsemicolon nofun)

theorem Statement.stringsEnd {d : Nat} {form : Form} (h : Statement d form ts e) :
    StringsEnd ts := by
  induction h with
  | noDeclaration => exact .nil
  | moreDeclarations _ _ ih ih' => exact ih.append ih'
  | function hword hname hleft parameters _ hright hopen _ hclose ih =>
    have hbody := (StringsEnd.cons hright (.cons hopen ih nofun) nofun).append
      (.single hclose nofun)
    have hall := parameters.stringsEnd.append hbody
    simpa using StringsEnd.cons hword (.cons hname (.cons hleft hall nofun) nofun) nofun
  | declare hword h => exact .cons hword h.stringsEnd nofun
  | statement _ ih => exact ih
  | expression h hsemicolon => exact (h.stringsEnd trivial).append (.single hsemicolon nofun)
  | print hword h hsemicolon =>
    exact .cons hword ((h.stringsEnd trivial).append (.single hsemicolon nofun)) nofun
  | ifThen hword hleft condition hright _ ih =>
    have hrest := (condition.stringsEnd trivial).append (.cons hright ih nofun)
    exact .cons hword (.cons hleft hrest nofun) nofun
  | ifElse hword hleft condition hright _ helse _ ih ih' =>
    have hrest := (condition.stringsEnd trivial).append
      (.cons hright (ih.append (.cons helse ih' nofun)) nofun)
    simpa using StringsEnd.cons hword (.cons hleft hrest nofun) nofun
  | whileLoop hword hleft condition hright _ ih =>
    have hrest := (condition.stringsEnd trivial).append (.cons hright ih nofun)
    exact .cons hword (.cons hleft hrest nofun) nofun
  | forLoop hword hleft initializer condition hsemicolon increment hright _ ih =>
    have hclauses := increment.stringsEnd.append (.cons hright ih nofun)
    have hrest := initializer.stringsEnd.append
      (condition.stringsEnd.append (.cons hsemicolon hclauses nofun))
    simpa using StringsEnd.cons hword (.cons hleft hrest nofun) nofun
  | giveBack hword value hsemicolon =>
    exact .cons hword (value.stringsEnd.append (.single hsemicolon nofun)) nofun
  | block hopen _ hclose ih => exact .cons hopen (ih.append (.single hclose nofun)) nofun

/-- In a program no string is left open. -/
theorem Program.stringsEnd (h : Program ts es) : StringsEnd ts := by
  cases h with
  | intro h hend => exact h.stringsEnd.append (.single hend nofun)

/-! ### Programs one after the other -/

theorem Statement.append {d : Nat} (h : Statement d .declarations ts (.many es))
    (h' : Statement d .declarations us (.many fs)) :
    Statement d .declarations (ts ++ us) (.many (es ++ fs)) := by
  generalize hform : Form.declarations = form at h
  generalize he : Node.many es = e at h
  induction h generalizing es with
  | noDeclaration =>
    cases he
    exact h'
  | moreDeclarations first _ _ ih =>
    cases he
    rw [List.append_assoc]
    exact .moreDeclarations first (ih h' rfl rfl)
  | _ => cases hform

/-- The end of the first program is left out, and the second one goes on in its place. -/
theorem Program.append (h : Program ts es) (h' : Program us fs) :
    Program (ts.dropLast ++ us) (es ++ fs) := by
  cases h with
  | intro h _ =>
    cases h' with
    | intro h' hend =>
      rw [List.dropLast_concat, ← List.append_assoc]
      exact .intro (h.append h') hend

end Grammar

/-! ### Trees further down -/

/-- The same mark, so many lines further down. -/
def Mark.down (n : Nat) (m : Mark) : Mark :=
  match m.line with
  | .integer i => { m with line := .integer (i + n) }
  | _ => m

/-- The same tree, so many lines further down. -/
def Node.down (n : Nat) (e : Node) : Node := e.mapMarks (Mark.down n)

theorem Token.mark_down (t : Token) (n : Nat) : (t.down n).mark = t.mark.down n := by
  rw [Mark.down, mark, mark, down]
  simp

/-- Each of some tokens, taken for the one so many lines further down. -/
def Likeness.down (n : Nat) (tokens : List Token) : Likeness where
  tokens t u := t ∈ tokens ∧ u = t.down n
  sameText := by
    rintro t _ ⟨-, rfl⟩
    exact ⟨rfl, rfl, rfl, rfl⟩

theorem Program.ofTokens_down (n : Nat) (tokens : List Token) :
    (Program.ofTokens tokens).Like (.down n tokens)
      (Program.ofTokens (tokens.map (Token.down n))) := by
  refine ofTokens_like (List.forall₂_map_right_iff.mpr (List.forall₂_same.mpr fun t ht => ?_))
  exact ⟨ht, rfl⟩

theorem Program.statements_down (n : Nat) (tokens : List Token) :
    (Program.ofTokens (tokens.map (Token.down n))).statements
      = (Program.ofTokens tokens).statements.map (Node.down n) := by
  refine Node.eq_map_of_forall₂ ((ofTokens_down n tokens).statements.imp fun e f hef => ?_)
  refine hef.eq_mapMarks ?_
  rintro _ _ ⟨t, _, ⟨-, rfl⟩, rfl, rfl⟩
  exact t.mark_down n

theorem EndsOnce.down {tokens : List Token} (h : EndsOnce tokens) (n : Nat) :
    EndsOnce (tokens.map (Token.down n)) := by
  obtain ⟨before, last, rfl, hlast, hbefore⟩ := h
  refine ⟨before.map (Token.down n), last.down n, by simp, hlast, fun t ht => ?_⟩
  obtain ⟨u, hu, rfl⟩ := List.mem_map.mp ht
  exact hbefore u hu

theorem Grammar.Program.down {tokens : List Token} {es : List Node} (hends : EndsOnce tokens)
    (h : Grammar.Program tokens es) (n : Nat) :
    Grammar.Program (tokens.map (Token.down n)) (es.map (Node.down n)) := by
  obtain ⟨herrors, rfl⟩ := LoxLang.Program.ofTokens_complete hends h
  rw [← LoxLang.Program.statements_down]
  refine LoxLang.Program.ofTokens_sound (hends.down n) ?_
  have hlike := (LoxLang.Program.ofTokens_down n tokens).errors
  rw [herrors] at hlike
  exact List.forall₂_nil_left_iff.mp hlike

/-! ### Joined texts -/

/-- The statements of texts one below the other, where the first one begins after `n` lines. -/
def statementsBelow (n : Nat) : List String → List Node
  | [] => []
  | s :: rest => (Program.ofSource s).statements.map (Node.down n)
      ++ statementsBelow (n + lineCount s) rest

theorem Grammar.Program.of_ok {s : String} (hok : (LoxLang.Program.ofSource s).ok) :
    Grammar.Program (tokensOf s) (LoxLang.Program.ofSource s).statements :=
  LoxLang.Program.ofTokens_sound (tokensOf_endsOnce s) (List.isEmpty_iff.mp hok)

theorem Grammar.Program.joined {sources : List String}
    (hok : ∀ s ∈ sources, (LoxLang.Program.ofSource s).ok) (n : Nat) :
    Grammar.Program ((tokensOf ("\n".intercalate sources)).map (Token.down n))
      (statementsBelow n sources) := by
  induction sources generalizing n with
  | nil => exact .intro .noDeclaration rfl
  | cons s rest ih =>
    obtain ⟨hs, hrest⟩ := List.forall_mem_cons.mp hok
    have hprogram := Grammar.Program.of_ok hs
    have hfirst := hprogram.down (tokensOf_endsOnce s) n
    cases rest with
    | nil =>
      rw [statementsBelow, statementsBelow, List.append_nil]
      exact hfirst
    | cons t rest =>
      have hmore := ih hrest (n + lineCount s)
      rw [String.intercalate_cons_cons, tokensOf_join hprogram.stringsEnd, List.map_append,
        List.map_map, List.map_dropLast]
      have hdown : Token.down n ∘ Token.down (lineCount s) = Token.down (n + lineCount s) :=
        funext fun u => u.down_down (lineCount s) n
      rw [hdown]
      exact hfirst.append hmore

/-- The statements of joined texts without errors are those of the texts, and there is no error. -/
theorem Program.ofSource_joined {sources : List String}
    (hok : ∀ s ∈ sources, (Program.ofSource s).ok) :
    Program.ofSource ("\n".intercalate sources) = ⟨statementsBelow 0 sources, [], []⟩ := by
  have hprogram := Grammar.Program.joined hok 0
  have hzero : Token.down 0 = id := funext Token.down_zero
  rw [hzero, List.map_id] at hprogram
  exact ofTokens_eq (tokensOf_endsOnce _) hprogram

end LoxLang
