/-
Layout changes nothing.

Two source texts whose tokens have the same kinds and lexemes differ in white space and comments
only.  Tokens with the same index are taken for each other (`Likeness.sameIndex`), so that both texts
are read and run in the same way.

* `Token.Lexed.sameText` — kind and lexeme of a token determine all of it but its place;
* `layout_changes_nothing` — the runs of both texts end alike, and errors are blamed on tokens with
  the same index.
-/
import LoxLang.Proofs.Machine.Parallel
import LoxLang.Proofs.Token.Scan

namespace LoxLang

/-! ### The same tokens in other places -/

/-- The kinds and the lexemes of the tokens of both texts are the same. -/
def SameTokens (s s' : String) : Prop :=
  (tokensOf s).map (fun t => (t.kind, t.lexeme)) = (tokensOf s').map fun t => (t.kind, t.lexeme)

instance (s s' : String) : Decidable (SameTokens s s') :=
  inferInstanceAs (Decidable (_ = _))

/-- Tokens with the same index in two lists, which have the same text. -/
def Likeness.sameIndex (ts us : List Token) : Likeness where
  tokens t u := t.SameText u ∧ ∃ i : Nat, ts[i]? = some t ∧ us[i]? = some u
  sameText h := h.1

/-- Whatever a token has besides its place is made of its kind and its lexeme. -/
theorem Token.Lexed.sameText {t u : Token} (ht : t.Lexed) (hu : u.Lexed) (hkind : t.kind = u.kind)
    (hlexeme : t.lexeme = u.lexeme) : t.SameText u := by
  obtain ⟨kind, lexeme, p, rfl⟩ := ht
  obtain ⟨kind', lexeme', q, rfl⟩ := hu
  obtain rfl : kind = kind' := hkind
  obtain rfl : lexeme = lexeme' := String.ofList_injective hlexeme
  exact ⟨rfl, rfl, rfl, rfl⟩

theorem SameTokens.forall₂ {s s' : String} (h : SameTokens s s') :
    List.Forall₂ (Likeness.sameIndex (tokensOf s) (tokensOf s')).tokens (tokensOf s)
      (tokensOf s') := by
  have hlength : (tokensOf s).length = (tokensOf s').length := by
    simpa using congrArg List.length h
  refine List.forall₂_iff_get.mpr ⟨hlength, fun i hi hi' => ?_⟩
  have hi := List.getElem?_eq_getElem hi
  have hi' := List.getElem?_eq_getElem hi'
  have hlexed := tokensOf_lexed (List.mem_of_getElem? hi)
  have hlexed' := tokensOf_lexed (List.mem_of_getElem? hi')
  have hpair := congrArg (·[i]?) h
  simp only [List.getElem?_map, hi, hi', Option.map_some, Option.some.injEq, Prod.mk.injEq] at hpair
  exact ⟨hlexed.sameText hlexed' hpair.1 hpair.2, i, hi, hi'⟩

/-! ### Runs of both texts -/

/-- Errors of the same class and with the same message, blamed on tokens with the same index. -/
def Diagnostic.Corresponds (ts us : List Token) (d d' : Diagnostic) : Prop :=
  d.sort = d'.sort ∧ d.message = d'.message ∧
    ∃ (i : Nat) (t u : Token), ts[i]? = some t ∧ us[i]? = some u ∧ d.mark = t.mark ∧ d'.mark = u.mark

/-- Runs that have printed the same and ended with the same status and the same value, where the
declarations of functions are compared but for the places in them; and with as many errors, which
correspond one by one.  Or runs that were both broken off for the same reason. -/
inductive SameRun (ts us : List Token) : Outcome Completion → Outcome Completion → Prop where
  | done {r r' : Completion} {m m' : Machine} (printed : m.printed = m'.printed)
      (status : r.status = r'.status) (value : r.value.Like (.sameIndex ts us) r'.value)
      (syntaxErrors : List.Forall₂ (fun e f => e.diagnostic.Corresponds ts us f.diagnostic)
        r.syntaxErrors r'.syntaxErrors)
      (runtimeError : Option.Rel (fun e f => e.diagnostic.Corresponds ts us f.diagnostic)
        r.runtimeError r'.runtimeError) :
      SameRun ts us (.done r m) (.done r' m')
  | stopped {why why' : Stop} {m m' : Machine} (printed : m.printed = m'.printed)
      (reason : why.Like (.sameIndex ts us) why') :
      SameRun ts us (.stopped why m) (.stopped why' m')

variable {ts us : List Token}

theorem SyntaxError.Like.corresponds {e f : SyntaxError} (h : e.Like (.sameIndex ts us) f) :
    e.diagnostic.Corresponds ts us f.diagnostic := by
  obtain ⟨-, i, ht, hu⟩ := h.token
  exact ⟨rfl, congrArg SyntaxFault.message h.fault, i, _, _, ht, hu, rfl, rfl⟩

theorem RuntimeError.Like.corresponds {e f : RuntimeError} (h : e.Like (.sameIndex ts us) f) :
    e.diagnostic.Corresponds ts us f.diagnostic := by
  obtain ⟨t, u, ⟨-, i, ht, hu⟩, hmark, hmark'⟩ := h.mark
  refine ⟨h.sameWords.1, h.sameWords.2, i, t, u, ht, hu, ?_, ?_⟩
  · rw [diagnostic_mark, hmark]
  · rw [diagnostic_mark, hmark']

theorem SameRun.of_like {x y : Outcome Completion}
    (h : x.Like (.sameIndex ts us) (Completion.Like (.sameIndex ts us)) y) : SameRun ts us x y := by
  cases h with
  | @done _ r r' _ _ _ hm hr =>
    refine .done hm.printed hr.status_eq hr.value ?_ ?_
    · exact hr.syntaxErrors.imp fun _ _ => SyntaxError.Like.corresponds
    · have herror := hr.runtimeError
      generalize r.runtimeError = error, r'.runtimeError = error' at herror ⊢
      cases herror with
      | none => exact .none
      | some h => exact .some h.corresponds
  | stopped _ hm hwhy => exact .stopped hm.printed hwhy

/-- Layout changes nothing.  The runs of two source texts whose tokens have the same kinds and
lexemes print the same and end alike: with the same status and value, or with as many syntax errors,
or with the same runtime error, where errors have the same class and message and are blamed on tokens
with the same index in the tokens of the texts. -/
theorem layout_changes_nothing (settings : Settings) {s s' : String} (h : SameTokens s s') :
    SameRun (tokensOf s) (tokensOf s') (runSource settings s .initial)
      (runSource settings s' .initial) := by
  have hprograms := Program.ofTokens_like h.forall₂
  exact .of_like ((runProgram_like settings hprograms).apply Machine.like_initial)

/-- Two layouts of a program that uses a name before anything is bound to it. -/
theorem layout_changes_nothing_of_undefined :
    let s := "print a;"
    let s' := "print // what?\n  a ;"
    SameTokens s s' ∧ SameRun (tokensOf s) (tokensOf s')
      (runSource (.tracing 0) s .initial) (runSource (.tracing 0) s' .initial) := by
  intro s s'
  have h : SameTokens s s' := by decide
  exact ⟨h, layout_changes_nothing (.tracing 0) h⟩

end LoxLang
