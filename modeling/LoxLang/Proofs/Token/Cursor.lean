/-
A cursor is an index.

All that is asked of a cursor (`Cursor.Query`) could be answered with the list of tokens and the
number of moves (`indexReply`): the token at an index, the one before it, and whether it is the last
one.  The cursor has two tokens at most in its hands instead, and takes the next one only when it
moves.

* `Cursor.At.next` — a move goes to the next index, and at the last one it goes nowhere;
* `Cursor.at_afterAll` — so the index of a cursor is the number of moves, up to the last index;
* `cursor_is_index` — the answers are those that the index gives, and there is always a token left
  when one is taken.
-/
import LoxLang.Proofs.Token.Scan
import LoxLang.Token.Cursor
import Mathlib.Data.List.Induction

namespace LoxLang

/-! ### Questions and answers -/

namespace Cursor

/-- What is asked of a cursor. -/
inductive Query where
  | peek
  | previous
  | check (kinds : List Kind)
  | isAtEnd
  | advance
deriving DecidableEq

/-- What a cursor answers. -/
inductive Reply where
  | token (t : Token)
  /-- There is no token before the first one. -/
  | nothing
  | holds (b : Bool)

/-- The answer of the cursor, unless it moves where no token is left. -/
def reply (c : Cursor) : Query → Option Reply
  | .peek => some (.token c.current)
  | .previous => some ((c.previous.map .token).getD .nothing)
  | .check kinds => some (.holds (c.check kinds))
  | .isAtEnd => some (.holds c.isAtEnd)
  | .advance => c.passed?.map .token

/-- The cursor when it has answered. -/
def after (c : Cursor) : Query → Cursor
  | .advance => c.next
  | _ => c

/-- The cursor when it has answered some questions in order. -/
def afterAll (c : Cursor) (queries : List Query) : Cursor := queries.foldl after c

/-- To answer this the cursor takes another token. -/
def Takes (c : Cursor) (q : Query) : Prop := q = .advance ∧ c.isAtEnd = false

end Cursor

/-- The answer that the tokens give after so many moves. -/
def indexReply (tokens : List Token) (moves : Nat) (q : Cursor.Query) : Option Cursor.Reply :=
  let last := tokens.length - 1
  let p := min moves last
  match q with
  | .peek | .advance => tokens[p]?.map .token
  | .previous => if p = 0 then some .nothing else tokens[p - 1]?.map .token
  | .check kinds => tokens[p]?.map fun t => .holds (decide (t.kind ∈ kinds))
  | .isAtEnd => some (.holds (decide (p = last)))

/-! ### The index of a cursor -/

/-- The cursor stands at the token with this index, with the tokens in front of it passed and those
after it still to be taken. -/
structure Cursor.At (tokens : List Token) (p : Nat) (c : Cursor) : Prop where
  split : tokens = tokens.take p ++ c.current :: c.upcoming
  bounded : p < tokens.length
  previous : c.previous = (tokens.take p).getLast?

variable {tokens : List Token} {p : Nat} {c : Cursor}

namespace Cursor.At

theorem drop_eq (h : c.At tokens p) : tokens.drop p = c.current :: c.upcoming := by
  have hsplit := h.split
  conv_lhs at hsplit => rw [← List.take_append_drop p tokens]
  exact List.append_cancel_left hsplit

theorem current_eq (h : c.At tokens p) : tokens[p]? = some c.current := by
  rw [← List.head?_drop, h.drop_eq, List.head?_cons]

theorem upcoming_eq (h : c.At tokens p) : c.upcoming = tokens.drop (p + 1) := by
  rw [← List.tail_drop, h.drop_eq, List.tail_cons]

/-- The cursor stands at the token that ends the source if its index is the last one. -/
theorem isAtEnd_iff (htokens : EndsOnce tokens) (h : c.At tokens p) :
    c.isAtEnd = true ↔ p = tokens.length - 1 := by
  have hsplit := htokens
  rw [h.split] at hsplit
  have hend := (hsplit.of_append (List.cons_ne_nil _ _)).1.tail_eq_nil_iff
  have hbounded := h.bounded
  rw [isAtEnd, beq_iff_eq, hend, h.upcoming_eq, List.drop_eq_nil_iff]
  omega

theorem next (htokens : EndsOnce tokens) (h : c.At tokens p) :
    c.next.At tokens (min (p + 1) (tokens.length - 1)) := by
  have hbounded := h.bounded
  rw [Cursor.next]
  split
  · rename_i hend
    have hlast := (h.isAtEnd_iff htokens).mp hend
    rwa [Nat.min_eq_right (by omega), ← hlast]
  · rename_i hmore
    rw [h.isAtEnd_iff htokens] at hmore
    have hupcoming := h.upcoming_eq
    have hnext : p + 1 < tokens.length := by omega
    rw [List.drop_eq_getElem_cons hnext] at hupcoming
    rw [Nat.min_eq_left (by omega), hupcoming]
    refine ⟨?_, hnext, ?_⟩
    · rw [← List.drop_eq_getElem_cons hnext, List.take_append_drop]
    · rw [List.take_add_one, h.current_eq, Option.toList_some, List.getLast?_concat]

theorem after (htokens : EndsOnce tokens) (h : c.At tokens p) (q : Query) :
    (c.after q).At tokens (min (p + [q].count .advance) (tokens.length - 1)) := by
  have hbounded := h.bounded
  have hstays : (min p (tokens.length - 1)) = p := Nat.min_eq_left (by omega)
  cases q with
  | advance => exact h.next htokens
  | peek | previous | check _ | isAtEnd =>
    rw [List.count_singleton, if_neg (by simp), Nat.add_zero, hstays]
    exact h

end Cursor.At

/-- After some questions, the index of a cursor is the number of moves, up to the last index. -/
theorem Cursor.at_afterAll (htokens : EndsOnce tokens) (h : c.At tokens 0) (queries : List Query) :
    (c.afterAll queries).At tokens (min (queries.count .advance) (tokens.length - 1)) := by
  induction queries using List.reverseRecOn with
  | nil => exact h
  | append_singleton queries q ih =>
    have hlast := ih.after htokens q
    rw [afterAll, List.foldl_concat, ← afterAll, List.count_append]
    have hmoves : min (min (queries.count .advance) (tokens.length - 1) + [q].count .advance)
        (tokens.length - 1) = min (queries.count .advance + [q].count .advance)
        (tokens.length - 1) := by
      omega
    rwa [hmoves] at hlast

/-- A cursor is made at the first token. -/
theorem Cursor.exists_at (htokens : EndsOnce tokens) :
    ∃ c, ofTokens? tokens = some c ∧ c.At tokens 0 := by
  cases tokens with
  | nil =>
    obtain ⟨before, last, h, -⟩ := htokens
    exact absurd h (List.append_ne_nil_of_right_ne_nil _ (List.cons_ne_nil _ _)).symm
  | cons t ts => exact ⟨_, rfl, rfl, Nat.succ_pos _, rfl⟩

/-! ### The answers -/

/-- Where a cursor moves, a token is left to be taken. -/
theorem Cursor.At.takes (htokens : EndsOnce tokens) (h : c.At tokens p) {q : Query}
    (hq : c.Takes q) : c.upcoming ≠ [] := by
  have hmore := hq.2
  rw [← Bool.not_eq_true, h.isAtEnd_iff htokens] at hmore
  have hbounded := h.bounded
  rw [ne_eq, h.upcoming_eq, List.drop_eq_nil_iff]
  omega

theorem Cursor.At.passed?_eq (htokens : EndsOnce tokens) (h : c.At tokens p) :
    c.passed? = some c.current := by
  rw [Cursor.passed?, if_neg]
  rw [Bool.and_eq_true, Bool.not_eq_true', List.isEmpty_iff]
  rintro ⟨hmore, hnone⟩
  exact h.takes htokens (q := .advance) ⟨rfl, hmore⟩ hnone

theorem Cursor.At.reply_eq (htokens : EndsOnce tokens) {moves : Nat}
    (h : c.At tokens (min moves (tokens.length - 1))) (q : Query) :
    c.reply q = indexReply tokens moves q := by
  have hcurrent := h.current_eq
  cases q with
  | peek => simp only [reply, indexReply, hcurrent, Option.map_some]
  | advance => simp only [reply, indexReply, h.passed?_eq htokens, hcurrent, Option.map_some]
  | check kinds => simp [reply, indexReply, hcurrent, Cursor.check]
  | isAtEnd =>
    have hend : c.isAtEnd = decide (min moves (tokens.length - 1) = tokens.length - 1) := by
      rw [Bool.eq_iff_iff, h.isAtEnd_iff htokens, decide_eq_true_iff]
    simp only [reply, indexReply, hend]
  | previous =>
    have hprevious := h.previous
    have hbounded := h.bounded
    simp only [reply, indexReply, hprevious]
    generalize min moves (tokens.length - 1) = p at hbounded ⊢
    cases p with
    | zero => rfl
    | succ p =>
      have htoken := List.getElem?_eq_getElem (show p < tokens.length by omega)
      rw [if_neg (Nat.succ_ne_zero p), Nat.add_sub_cancel, List.take_add_one, htoken,
        Option.toList_some, List.getLast?_concat]
      rfl

/-- A cursor is an index.  Over tokens of which the last one, and no other, ends the source, a
cursor can be made, and whatever has been asked of it, it answers what the tokens give after as
many moves as it has been asked for: the token with that index, or the last one, and what there is
to say of it.  So far it has taken the tokens up to that index and no other, and where it takes
another one there is one left, so that it always has an answer. -/
theorem cursor_is_index (htokens : EndsOnce tokens) : ∃ first, Cursor.ofTokens? tokens = some first ∧
    ∀ (before : List Cursor.Query) (q : Cursor.Query),
      let c := first.afterAll before
      let moves := before.count .advance
      c.reply q = indexReply tokens moves q ∧ (c.reply q).isSome ∧
        c.upcoming = tokens.drop (min moves (tokens.length - 1) + 1) ∧
        (c.Takes q → c.upcoming ≠ []) := by
  obtain ⟨first, hfirst, hstart⟩ := Cursor.exists_at htokens
  refine ⟨first, hfirst, fun before q => ?_⟩
  intro c moves
  have hc : c.At tokens (min moves (tokens.length - 1)) := Cursor.at_afterAll htokens hstart before
  refine ⟨hc.reply_eq htokens q, ?_, hc.upcoming_eq, hc.takes htokens⟩
  cases q with
  | advance => simp [Cursor.reply, hc.passed?_eq htokens]
  | peek | previous | check _ | isAtEnd => rfl

/-- After three moves over two tokens, the cursor stands at the second one. -/
theorem cursor_is_index_past_end :
    let tokens := tokensOf "a"
    EndsOnce tokens ∧ ∃ first, Cursor.ofTokens? tokens = some first ∧
      (first.afterAll [.advance, .peek, .advance, .advance]).reply .previous
        = indexReply tokens 3 .previous := by
  intro tokens
  have htokens : EndsOnce tokens := tokensOf_endsOnce "a"
  obtain ⟨first, hfirst, hanswers⟩ := cursor_is_index htokens
  exact ⟨htokens, first, hfirst,
    (hanswers [.advance, .peek, .advance, .advance] .previous).1⟩

end LoxLang
