/-
Errors in order.

An error for which reading is given up is of the current token, which is passed before reading goes
on.  So these errors are of later and later tokens, up to the end of the source, which is never
passed.

* `EndsOnce.kind_iff` — whether a token ends the source is a question of its index.
* `Reading.Blames` — from one state to another, the tokens that are blamed lie between those on
  which the two states stand, in order.
* `inOrder_recovery` — so it is with every reader.
* `Reading.Blames.isAtEnd` — the end of the source is blamed only where it has been reached.
-/
import LoxLang.Proofs.Reader.Resuming

namespace LoxLang

open Reading Reader

/-! ### The end of the source -/

section Ends

variable {tokens : List Token} {s s' : Reading} {t : Token} {i : Nat}

/-- The token that ends a source is the last one. -/
theorem EndsOnce.kind_iff (htokens : EndsOnce tokens) (h : tokens[i]? = some t) :
    t.kind = .endOfFile ↔ i + 1 = tokens.length := by
  obtain ⟨hi, rfl⟩ := List.getElem?_eq_some_iff.mp h
  have hdrop := List.drop_eq_getElem_cons hi
  have hends : EndsOnce (tokens[i] :: tokens.drop (i + 1)) := by
    rw [← List.take_append_drop i tokens, hdrop] at htokens
    exact (htokens.of_append (List.cons_ne_nil _ _)).1
  rw [hends.tail_eq_nil_iff, List.drop_eq_nil_iff]
  omega

theorem Reading.StandsIn.isAtEnd_iff (h : s.StandsIn tokens) (htokens : EndsOnce tokens) :
    s.cursor.isAtEnd = true ↔ s.cursor.index + 1 = tokens.length := by
  rw [Reading.isAtEnd_iff, htokens.kind_iff h.getElem?]

theorem Reading.StandsIn.index_lt (h : s.StandsIn tokens) : s.cursor.index < tokens.length :=
  (List.getElem?_eq_some_iff.mp h.getElem?).1

/-- Moving on is counted, unless the source has ended. -/
theorem Reading.StandsIn.index_next (h : s.StandsIn tokens) (htokens : EndsOnce tokens) :
    { s with cursor := s.cursor.next }.cursor.index =
      if s.cursor.isAtEnd then s.cursor.index else s.cursor.index + 1 := by
  cases hend : s.cursor.isAtEnd with
  | true => simp [Cursor.next, hend]
  | false => exact (h.skip_one htokens hend).2

theorem Reading.StandsIn.index_lt_of_passed (h : s.StandsIn tokens) (h' : s'.StandsIn tokens)
    {ts : List Token} (hts : s.Passed ts s') (hne : ts ≠ []) :
    s.cursor.index < s'.cursor.index := by
  have hlength := hts.length
  have hpositive := List.length_pos_iff.mpr hne
  rw [← h, ← h', List.length_drop, List.length_drop] at hlength
  have hlt := h'.index_lt
  omega

end Ends

/-! ### Errors in order -/

/-- The errors for which reading was given up. -/
def Reading.blamed (s : Reading) : List SyntaxError := s.errors.filter (·.fault.unwinds)

/-- One error is of an earlier token than another one, or both are of the end of the source. -/
def SyntaxError.Before (e e' : SyntaxError) : Prop :=
  e.index < e'.index ∨ e.token.kind = .endOfFile ∧ e'.token.kind = .endOfFile

/-- From one state to another reading was given up with errors of tokens from the one on which the
first state stands, in order.  The token on which the second state stands is not among these tokens
unless it is `allowed`. -/
structure Reading.Blames (tokens : List Token) (allowed : Prop) (s s' : Reading) : Prop where
  stands : s'.StandsIn tokens
  index : s.cursor.index ≤ s'.cursor.index
  blamed : ∃ new, s'.blamed = s.blamed ++ new ∧ new.Pairwise SyntaxError.Before ∧
    ∀ e ∈ new, tokens[e.index]? = some e.token ∧ s.cursor.index ≤ e.index ∧
      (e.index < s'.cursor.index ∨ allowed ∧ e.index = s'.cursor.index)

section Blames

variable {tokens : List Token} {allowed : Prop} {s s' s'' : Reading}

theorem Reading.blamed_recorded (s : Reading) (e : SyntaxError) :
    (Reader.recorded s e).blamed = s.blamed ++ if e.fault.unwinds then [e] else [] := by
  rw [blamed, Reader.recorded, List.filter_append, ← blamed, List.filter_singleton, Bool.cond_eq_ite]

theorem Reading.Blames.of_same (hs : s'.StandsIn tokens) (hindex : s.cursor.index ≤ s'.cursor.index)
    (hblamed : s'.blamed = s.blamed) : s.Blames tokens allowed s' where
  stands := hs
  index := hindex
  blamed := ⟨[], by rw [hblamed, List.append_nil], .nil, nofun⟩

/-- What reading was given up for before, it is not given up for again, unless the source has
ended. -/
theorem Reading.Blames.trans (htokens : EndsOnce tokens)
    (h : s.Blames tokens (s'.cursor.isAtEnd = true) s') (h' : s'.Blames tokens allowed s'')
    (hallowed : s'.cursor.isAtEnd = true → s''.cursor.index = s'.cursor.index → allowed) :
    s.Blames tokens allowed s'' := by
  obtain ⟨hs', hindex, new, hblamed, hordered, hnew⟩ := h
  obtain ⟨hs'', hindex', new', hblamed', hordered', hnew'⟩ := h'
  have hend := hs'.isAtEnd_iff htokens
  have hlast := hs''.index_lt
  refine ⟨hs'', hindex.trans hindex', new ++ new', ?_, ?_, fun e he => ?_⟩
  · rw [hblamed', hblamed, List.append_assoc]
  · refine List.pairwise_append.mpr ⟨hordered, hordered', fun e he e' he' => ?_⟩
    obtain ⟨htoken, -, hupper⟩ := hnew e he
    obtain ⟨htoken', hlower, -⟩ := hnew' e' he'
    have hlength := (List.getElem?_eq_some_iff.mp htoken').1
    rw [hend] at hupper
    rw [SyntaxError.Before, htokens.kind_iff htoken, htokens.kind_iff htoken']
    omega
  · rcases List.mem_append.mp he with he | he
    · obtain ⟨htoken, hlower, hupper⟩ := hnew e he
      refine ⟨htoken, hlower, ?_⟩
      rcases hupper with hlt | ⟨hatEnd, heq⟩
      · exact .inl (by omega)
      · have hsame : s''.cursor.index = s'.cursor.index := by
          have hlength := hend.mp hatEnd
          omega
        exact .inr ⟨hallowed hatEnd hsame, by omega⟩
    · obtain ⟨htoken, hlower, hupper⟩ := hnew' e he
      exact ⟨htoken, by omega, hupper⟩

/-- What is found may have the last error of a token that has been passed, or of the end. -/
def Reading.FindsInOrder (tokens : List Token) (s s' : Reading) : Prop :=
  s.StandsIn tokens → s.Blames tokens (s'.cursor.isAtEnd = true) s'

/-- What is given up has the last error of the token on which reading stands. -/
def Reading.FailsInOrder (tokens : List Token) (s s' : Reading) : Prop :=
  s.StandsIn tokens → s.Blames tokens True s'

/-- Where reading goes on, the token that is blamed has been passed, unless it ends the source. -/
theorem inOrder_recovery (htokens : EndsOnce tokens) :
    Reading.Recovery (FindsInOrder tokens) (FailsInOrder tokens) where
  refl s hs := .of_same hs (Nat.le_refl _) rfl
  trans h h' hs := by
    have hfirst := h hs
    have hsecond := h' hfirst.stands
    refine hfirst.trans htokens hsecond fun hend hindex => ?_
    rw [hsecond.stands.isAtEnd_iff htokens, hindex]
    exact (hfirst.stands.isAtEnd_iff htokens).mp hend
  after h h' hs := (h hs).trans htokens (h' (h hs).stands) fun _ _ => trivial
  next s hs := by
    refine .of_same ((standsIn_stable htokens).next hs) ?_ rfl
    rw [hs.index_next htokens]
    split
    · exact Nat.le_refl _
    · exact Nat.le_succ _
  noted s e he hs := .of_same hs (Nat.le_refl _) (by rw [blamed_recorded, he]; simp)
  fault s fault hfault hs := by
    refine ⟨hs, Nat.le_refl _, [Reader.faultHere s fault], ?_, List.pairwise_singleton _ _, ?_⟩
    · rw [blamed_recorded, Reader.faultHere, if_pos hfault]
    · rintro e he
      obtain rfl := List.mem_singleton.mp he
      exact ⟨hs.getElem?, Nat.le_refl _, .inr ⟨trivial, rfl⟩⟩
  resumed {s s'} h hs := by
    obtain ⟨hs', hindex, new, hblamed, hordered, hnew⟩ := h hs
    have hnext := hs'.index_next htokens
    refine ⟨(standsIn_stable htokens).next hs', ?_, new, hblamed, hordered, fun e he => ?_⟩
    · rw [hnext]
      split
      · exact hindex
      · exact hindex.trans (Nat.le_succ _)
    · obtain ⟨htoken, hlower, hupper⟩ := hnew e he
      refine ⟨htoken, hlower, ?_⟩
      rw [hnext]
      split
      · rename_i hend
        have hsame : { s' with cursor := s'.cursor.next }.cursor = s'.cursor := by
          rw [Cursor.next, if_pos hend]
        rw [hsame]
        exact hupper.imp_right fun h => ⟨hend, h.2⟩
      · left
        omega
  withDepth s d hs := .of_same hs (Nat.le_refl _) rfl
  fault_withDepth d h hs := by
    obtain ⟨hs', hindex, hblamed⟩ := h hs
    exact ⟨hs', hindex, hblamed⟩

theorem Reader.Keeps.blames {α : Type} {p : Reader α} {a : α}
    (hp : Keeps (FindsInOrder tokens) (FailsInOrder tokens) p) (h : p s = .ok a s')
    (hs : s.StandsIn tokens) : s.Blames tokens (s'.cursor.isAtEnd = true) s' :=
  hp.of_ok h hs

/-- How often the end of the source has been blamed. -/
def Reading.endBlamed (s : Reading) : Nat := s.blamed.countP (·.token.kind == .endOfFile)

theorem Reading.Blames.endBlamed_le (h : s.Blames tokens allowed s') :
    s.endBlamed ≤ s'.endBlamed := by
  obtain ⟨new, hblamed, -⟩ := h.blamed
  rw [endBlamed, endBlamed, hblamed, List.countP_append]
  exact Nat.le_add_right _ _

theorem Reading.endBlamed_recorded (s : Reading) (fault : SyntaxFault)
    (h : fault.unwinds = true) : (Reader.recorded s (Reader.faultHere s fault)).endBlamed
      = s.endBlamed + if s.cursor.isAtEnd then 1 else 0 := by
  rw [endBlamed, endBlamed, blamed_recorded, Reader.faultHere, if_pos h, List.countP_append,
    List.countP_singleton]
  rfl

/-- The end of the source is blamed only where it has been reached. -/
theorem Reading.Blames.isAtEnd (h : s.Blames tokens allowed s') (htokens : EndsOnce tokens)
    (hne : s'.endBlamed ≠ s.endBlamed) : s'.cursor.isAtEnd = true := by
  obtain ⟨hs', hindex, new, hblamed, -, hnew⟩ := h
  rw [endBlamed, endBlamed, hblamed, List.countP_append] at hne
  have hpos : 0 < new.countP (·.token.kind == .endOfFile) := by omega
  obtain ⟨e, he, hend⟩ := List.countP_pos_iff.mp hpos
  obtain ⟨htoken, -, hupper⟩ := hnew e he
  have hlast := (htokens.kind_iff htoken).mp (beq_iff_eq.mp hend)
  have hlt := hs'.index_lt
  rw [hs'.isAtEnd_iff htokens]
  omega

end Blames

end LoxLang
