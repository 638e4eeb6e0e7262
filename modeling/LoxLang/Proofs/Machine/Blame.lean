/-
Every error points into the source.

A tree that is read from a source text is like itself, with the tokens of that text taken for
themselves only (`Likeness.same`).  So the run of the text goes along with itself, and whatever mark
it comes across is that of such a token: in the course of the run trees, functions and errors never
get marks from anywhere else.

* `SyntaxError.PointsInto`, `RuntimeError.PointsInto` — what is claimed of an error;
* `errors_point_into_source` — it holds of all errors of the run of a source text.
-/
import LoxLang.Proofs.Machine.Parallel
import LoxLang.Proofs.Token.Tiling

namespace LoxLang

variable {source : String}

/-! ### Errors at the end -/

/-- The token that ends the source is the only one of its kind. -/
theorem endOfFile_iff_eq_endToken {t : Token} (ht : t ∈ tokensOf source) :
    t.kind = .endOfFile ↔ t = endToken source := by
  constructor
  · intro hkind
    obtain ⟨before, last, htokens, -, hbefore⟩ := tokensOf_endsOnce source
    have hlast : (tokensOf source).getLast? = some (endToken source) := by
      rw [tokensOf, place_getLast?, flatMap_pieces, endToken]
    rw [htokens] at ht hlast
    obtain rfl : last = endToken source := by simpa using hlast
    rcases List.mem_append.mp ht with ht | ht
    · exact absurd hkind (hbefore t ht)
    · exact List.mem_singleton.mp ht
  · rintro rfl
    rfl

/-- The line for a syntax error, of which the words after the line number depend on the token. -/
theorem SyntaxError.report_eq (e : SyntaxError) :
    e.report = "[line " ++ toString e.token.line ++ "] Error" ++ e.token.mark.whereabouts ++ ": "
      ++ e.fault.message := by
  have hreport : e.report = "[line " ++ toString e.token.line ++ "] " ++
      ("Error" ++ e.token.mark.whereabouts) ++ ": " ++ e.fault.message := rfl
  have hwords : "] Error" = "] " ++ "Error" := rfl
  rw [hreport, hwords]
  simp only [String.append_assoc]

theorem Mark.whereabouts_eq_iff (m : Mark) : m.whereabouts = " at end" ↔ m.kind = .endOfFile := by
  rw [whereabouts]
  split
  · simp [*]
  · refine iff_of_false (fun h => ?_) ‹_›
    -- The texts differ after ` at `: there is a quote in one of them.
    have hquote : (" at '".toList ++ (m.lexeme.shown ++ "'").toList)[4]? = " at end".toList[4]? := by
      rw [← String.toList_append, ← String.append_assoc, h]
    rw [List.getElem?_append_left (by decide)] at hquote
    exact absurd hquote (by decide)

/-- A syntax error says that it is at the end exactly if the token it is blamed on ends the source. -/
theorem SyntaxError.report_atEnd_iff (e : SyntaxError) :
    e.report = "[line " ++ toString e.token.line ++ "] Error at end: " ++ e.fault.message ↔
      e.token.kind = .endOfFile := by
  have hwords : "] Error at end: " = "] Error" ++ " at end" ++ ": " := rfl
  rw [e.report_eq, hwords, ← show e.token.mark.kind = e.token.kind from rfl,
    ← e.token.mark.whereabouts_eq_iff]
  -- What is in front of these words and what is after them is the same in both texts.
  simp only [← String.toList_inj, String.toList_append, List.append_assoc,
    List.append_cancel_left_eq]
  rw [← List.append_assoc, ← List.append_assoc, List.append_left_inj]
  exact List.append_left_inj _

/-! ### Errors of a run -/

/-- The error is blamed on a token of the source text, which has the lexeme of the token at that
place.  Its report says that it is at the end exactly if the token is the one that ends the source. -/
structure SyntaxError.PointsInto (e : SyntaxError) (source : String) : Prop where
  token : e.token ∈ tokensOf source
  place : e.token.LiesIn source
  atEnd : e.report = "[line " ++ toString e.token.line ++ "] Error at end: " ++ e.fault.message ↔
    e.token = endToken source

/-- The error is blamed on the mark of a token of the source text, which has the lexeme of the token
at that place.  If there are too many calls, the token is a closing parenthesis. -/
def RuntimeError.PointsInto (e : RuntimeError) (source : String) : Prop :=
  ∃ t ∈ tokensOf source, e.mark = t.mark ∧ t.LiesIn source ∧
    (e.fault = .stackOverflow → t.kind = .rightParen)

/-- The run has ended with a result, of which all errors point into the source text; or it has been
broken off, which no error does. -/
def Outcome.PointsInto (source : String) : Outcome Completion → Prop
  | .done r _ => (∀ e ∈ r.syntaxErrors, e.PointsInto source) ∧
      ∀ e ∈ r.runtimeError, e.PointsInto source
  | .stopped why _ => ∀ e, why ≠ .failed e

theorem SyntaxError.Like.pointsInto {e f : SyntaxError}
    (h : e.Like (.same (tokensOf source)) f) : e.PointsInto source where
  token := h.token.2
  place := .of_mem h.token.2
  atEnd := e.report_atEnd_iff.trans (endOfFile_iff_eq_endToken h.token.2)

theorem RuntimeError.Like.pointsInto {e f : RuntimeError}
    (h : e.Like (.same (tokensOf source)) f) : e.PointsInto source := by
  obtain ⟨t, -, ⟨-, ht⟩, hmark, -⟩ := h.mark
  refine ⟨t, ht, hmark.symm, .of_mem ht, fun hfault => ?_⟩
  have hclosing := h.overflow hfault
  rwa [← hmark] at hclosing

/-- A program that is read from a source text is like itself. -/
theorem Program.ofSource_like (source : String) :
    (Program.ofSource source).Like (.same (tokensOf source)) (Program.ofSource source) :=
  Program.ofTokens_like (Likeness.forall₂_same _)

theorem Outcome.Like.pointsInto {x : Outcome Completion}
    (h : x.Like (.same (tokensOf source)) (Completion.Like (.same (tokensOf source))) x)
    (hcaught : ∀ e n, x ≠ .stopped (.failed e) n) : x.PointsInto source := by
  cases x with
  | done r m =>
    cases h with
    | done _ _ hr =>
      refine ⟨fun e he => (List.forall₂_same.mp hr.syntaxErrors e he).pointsInto, fun e he => ?_⟩
      have herror := hr.runtimeError
      rw [Option.mem_def.mp he] at herror
      cases herror with
      | some h => exact h.pointsInto
  | stopped why m => exact fun e he => hcaught e m (congrArg (Outcome.stopped · m) he)

/-- Every error points into the source.  Whatever is told of the syntax of a source text, and with
whatever errors its run ends, each of them is blamed on a token of the text, at whose line and
column the text goes on with the lexeme of the token.  A syntax error is said to be at the end
exactly if the token is the one that ends the source. -/
theorem errors_point_into_source (settings : Settings) (source : String) :
    (∀ e ∈ (Program.ofSource source).heard, e.PointsInto source) ∧
      (runSource settings source .initial).PointsInto source := by
  have hlike := Program.ofSource_like source
  constructor
  · exact fun e he => (List.forall₂_same.mp hlike.heard e he).pointsInto
  · have hrun := (runProgram_like settings hlike).apply Machine.like_initial
    exact Outcome.Like.pointsInto hrun (request_catches settings (.source source) .initial)

end LoxLang
