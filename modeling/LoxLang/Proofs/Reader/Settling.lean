/-
What is read in front of a semicolon does not depend on what comes after it.

No reader of expressions passes a semicolon.  So where the same tokens lie ahead up to a
semicolon, it does the same: it passes the same tokens, records the same errors of them, and finds
the same tree or gives up at the same token.  `Reader.Settles` says this of a reader, for one list
of tokens, whether they are an expression or not.

* `Settles.bind`, `Settles.accept`, `Settles.expect`, ... — one rule for each way to put readers
  together;
* `expressions_settle` — expressions, by induction on the number of tokens up to the semicolon: a
  reader that is made of itself has passed a token before it comes to itself again.
-/
import LoxLang.Proofs.Reader.LenientExpressions

namespace LoxLang

/-- The same error, with so many more tokens before the first one. -/
def SyntaxError.after (n : Nat) (e : SyntaxError) : SyntaxError := { e with index := n + e.index }

theorem SyntaxError.map_after_after (m n : Nat) (es : List SyntaxError) :
    (es.map (·.after n)).map (·.after m) = es.map (·.after (m + n)) := by
  simp [after, Nat.add_assoc]

theorem SyntaxError.map_after_zero (es : List SyntaxError) : es.map (·.after 0) = es := by
  simp [after]

/-! ### In front of a semicolon -/

namespace Reading

variable {s : Reading} {t semicolon next : Token} {ts us vs : List Token}
  {faults faults' : List SyntaxError}

/-- The state after these tokens, with errors recorded whose indices are counted from here. -/
def along (s : Reading) (us : List Token) (faults : List SyntaxError) : Reading :=
  s.past us.length (faults.map (·.after s.cursor.index))

theorem along_nil (s : Reading) : s.along [] [] = s := past_nil s 0

theorem recorded_along (s : Reading) (us : List Token) (faults : List SyntaxError)
    (e : SyntaxError) :
    Reader.recorded (s.along us faults) (e.after s.cursor.index) = s.along us (faults ++ [e]) := by
  rw [recorded_eq_past, along, past_past, along, List.map_append]
  rfl

theorem along_along (h : s.Sees us next) :
    (s.along us faults).along vs faults'
      = s.along (us ++ vs) (faults ++ faults'.map (·.after us.length)) := by
  have hindex : (s.past us.length (faults.map (·.after s.cursor.index))).cursor.index
      = s.cursor.index + us.length := h.index
  rw [along, along, along, hindex, past_past, List.length_append, List.map_append,
    SyntaxError.map_after_after]

/-- These tokens lie ahead, then this semicolon, and then no `else`, outside every function
body. -/
structure Before (s : Reading) (ts : List Token) (semicolon : Token) : Prop where
  sees : ∃ next, s.Sees (ts ++ [semicolon]) next ∧ next.kind ≠ .elseWord
  depth : s.depth = 0

namespace Before

theorem ends (h : s.Before ts semicolon) : s.Ends := by
  obtain ⟨next, hsees, -⟩ := h.sees
  exact hsees.ends

theorem current (h : s.Before ts semicolon) : s.cursor.current = ts.headD semicolon := by
  obtain ⟨next, hsees, -⟩ := h.sees
  rw [hsees.current_eq]
  cases ts with
  | nil => rfl
  | cons t ts => rfl

theorem part (h : s.Before (us ++ vs) semicolon) : ∃ next, s.Sees us next := by
  obtain ⟨next, hsees, -⟩ := h.sees
  rw [List.append_assoc] at hsees
  exact hsees.split

theorem along (h : s.Before (us ++ vs) semicolon) (faults : List SyntaxError) :
    (s.along us faults).Before vs semicolon := by
  obtain ⟨next, hsees, hnext⟩ := h.sees
  rw [List.append_assoc] at hsees
  exact ⟨⟨next, hsees.past _, hnext⟩, (past_depth _ _ _).trans h.depth⟩

end Before

end Reading

namespace Reader

open Grammar Reading

variable {α β : Type} {semicolon t : Token} {ts : List Token} {p q : Reader α}

/-- With these tokens ahead and then this semicolon, the reader does the same wherever it is: it
passes some of the tokens, records errors of them, and finds something or gives up. -/
inductive Settles (semicolon : Token) (p : Reader α) (ts : List Token) : Prop where
  | found (a : α) (us vs : List Token) (faults : List SyntaxError) (hts : ts = us ++ vs)
      (h : ∀ s : Reading, s.Before ts semicolon → p s = (pure a : Reader α) (s.along us faults))
  | failed (fault : SyntaxFault) (us vs : List Token) (faults : List SyntaxError)
      (hts : ts = us ++ vs)
      (h : ∀ s : Reading, s.Before ts semicolon → p s = fail fault (s.along us faults))

namespace Settles

theorem pure (a : α) (ts : List Token) : Settles semicolon (Pure.pure a) ts :=
  .found a [] ts [] rfl fun s _ => by rw [along_nil]

theorem fail (fault : SyntaxFault) (ts : List Token) :
    Settles semicolon (Reader.fail fault : Reader α) ts :=
  .failed fault [] ts [] rfl fun s _ => by rw [along_nil]

theorem of_before (hp : ∀ s : Reading, s.Before ts semicolon → p s = q s)
    (h : Settles semicolon q ts) : Settles semicolon p ts := by
  cases h with
  | found a us vs faults hts h =>
    exact .found a us vs faults hts fun s hs => (hp s hs).trans (h s hs)
  | failed fault us vs faults hts h =>
    exact .failed fault us vs faults hts fun s hs => (hp s hs).trans (h s hs)

theorem of_eq (hp : ∀ s : Reading, s.Ends → p s = q s) (h : Settles semicolon q ts) :
    Settles semicolon p ts :=
  h.of_before fun s hs => hp s hs.ends

/-- A reader that goes on as another one, after some tokens and errors. -/
theorem after {us vs : List Token} {faults : List SyntaxError}
    (hp : ∀ s : Reading, s.Before (us ++ vs) semicolon → p s = q (s.along us faults))
    (h : Settles semicolon q vs) : Settles semicolon p (us ++ vs) := by
  cases h with
  | found a us' vs' faults' hvs h =>
    refine .found a (us ++ us') vs' (faults ++ faults'.map (·.after us.length))
      (by rw [hvs, List.append_assoc]) fun s hs => ?_
    obtain ⟨next, hsees⟩ := hs.part
    rw [hp s hs, h _ (hs.along faults), along_along hsees]
  | failed fault us' vs' faults' hvs h =>
    refine .failed fault (us ++ us') vs' (faults ++ faults'.map (·.after us.length))
      (by rw [hvs, List.append_assoc]) fun s hs => ?_
    obtain ⟨next, hsees⟩ := hs.part
    rw [hp s hs, h _ (hs.along faults), along_along hsees]

/-- A reader that goes on as another one after the first token. -/
theorem after_first (hp : ∀ s : Reading, s.Before (t :: ts) semicolon → p s = q (s.skip 1))
    (h : Settles semicolon q ts) : Settles semicolon p (t :: ts) := by
  have hfirst (s : Reading) (hs : s.Before ([t] ++ ts) semicolon) :
      p s = q (s.along [t] []) := by
    rw [hp s hs, along, List.map_nil, past_nil]
    rfl
  exact after hfirst h

/-- A reader that goes on as another one after an error of the current token. -/
theorem after_fault (fault : SyntaxFault)
    (hp : ∀ s : Reading, s.Before ts semicolon → p s = q (recorded s (faultHere s fault)))
    (h : Settles semicolon q ts) : Settles semicolon p ts := by
  have hfirst (s : Reading) (hs : s.Before ([] ++ ts) semicolon) :
      p s = q (s.along [] [⟨ts.headD semicolon, 0, fault⟩]) := by
    rw [hp s hs, faultHere, Before.current hs]
    rfl
  exact after hfirst h

theorem bind {f : α → Reader β} (hp : Settles semicolon p ts)
    (hf : ∀ a vs, vs <:+ ts → Settles semicolon (f a) vs) : Settles semicolon (p >>= f) ts := by
  cases hp with
  | found a us vs faults hts h =>
    subst hts
    have hfirst (s : Reading) (hs : s.Before (us ++ vs) semicolon) :
        (p >>= f) s = f a (s.along us faults) := bind_of_ok (h s hs)
    exact after hfirst (hf a vs (List.suffix_append us vs))
  | failed fault us vs faults hts h =>
    exact .failed fault us vs faults hts fun s hs => bind_of_failed (h s hs)

/-! ### Basic readers -/

section

variable {yes no : Reader β}

theorem check (kinds : List Kind)
    (hyes : (ts.headD semicolon).kind ∈ kinds → Settles semicolon yes ts)
    (hno : Settles semicolon no ts) :
    Settles semicolon (Reader.check kinds >>= fun b => if b then yes else no) ts := by
  cases hb : kinds.contains (ts.headD semicolon).kind with
  | true =>
    refine (hyes (List.contains_iff_mem.mp hb)).of_before fun s hs => ?_
    rw [check_bind, hs.current, hb, if_pos rfl]
  | false =>
    exact hno.of_before fun s hs => by rw [check_bind, hs.current, hb, if_neg Bool.false_ne_true]

/-- A question that the semicolon does not answer with yes. -/
theorem check_first {kinds : List Kind} (hkinds : semicolon.kind ∉ kinds)
    (hyes : ∀ t us, ts = t :: us → Settles semicolon yes (t :: us))
    (hno : Settles semicolon no ts) :
    Settles semicolon (Reader.check kinds >>= fun b => if b then yes else no) ts := by
  refine check kinds (fun hmem => ?_) hno
  cases ts with
  | nil => exact absurd hmem hkinds
  | cons t ts => exact hyes t ts rfl

/-- A question that is answered with a move if the answer is yes. -/
theorem ask {yes : Token → Reader β} {kinds : List Kind} (hkinds : semicolon.kind ∉ kinds)
    (hyes : ∀ t us, ts = t :: us → Settles semicolon (yes t) us) (hno : Settles semicolon no ts) :
    Settles semicolon (Reader.check kinds >>= fun b => if b then advance >>= yes else no) ts :=
  check_first hkinds (fun t us hts => after_first
    (fun s hs => by rw [advance_bind, hs.current]; rfl) (hyes t us hts)) hno

theorem accept {kind : Kind} (hkind : semicolon.kind ≠ kind)
    (hyes : ∀ t us, ts = t :: us → Settles semicolon yes us) (hno : Settles semicolon no ts) :
    Settles semicolon (Reader.accept kind >>= fun b => if b then yes else no) ts := by
  have hkinds : semicolon.kind ∉ [kind] := by simpa using hkind
  refine (ask hkinds hyes hno).of_before fun s _ => ?_
  rw [Reader.accept, bind_assoc, check_bind, check_bind]
  split
  · rfl
  · rfl

theorem expect {kind : Kind} {fault : SyntaxFault} {f : Token → Reader β}
    (hkind : semicolon.kind ≠ kind) (hf : ∀ t us, ts = t :: us → Settles semicolon (f t) us) :
    Settles semicolon (Reader.expect kind fault >>= f) ts := by
  have hkinds : semicolon.kind ∉ [kind] := by simpa using hkind
  refine (ask hkinds hf (fail fault ts)).of_before fun s _ => ?_
  rw [Reader.expect, bind_assoc, check_bind, check_bind]
  split
  · rfl
  · rfl

end

end Settles

/-- The reader settles wherever fewer than so many tokens lie in front of the semicolon. -/
def SettlesBelow (semicolon : Token) (n : Nat) (p : Reader α) : Prop :=
  ∀ ts : List Token, ts.length < n → Settles semicolon p ts

/-- A loop settles if each turn does, where the rest of the loop settles on fewer tokens. -/
theorem settlesBelow_of_turn {ι : Type} {n : Nat} {p : ι → Reader α}
    (hturn : ∀ i ts, ts.length < n →
      (∀ j us, us.length < ts.length → Settles semicolon (p j) us) → Settles semicolon (p i) ts)
    (i : ι) : SettlesBelow semicolon n (p i) := by
  intro ts hts
  induction hlength : ts.length using Nat.strong_induction_on generalizing ts i with
  | _ m ih =>
    refine hturn i ts hts fun j us hus => ?_
    rw [hlength] at hus
    exact ih us.length hus j us (by omega) rfl

section

variable {n : Nat} (hsemicolon : semicolon.kind = .semicolon)

include hsemicolon

/-! ### Operators between operands -/

theorem chained_settles {level : Level} {ls : List Level} (hls : level :: ls <:+ levels)
    (hoperand : SettlesBelow semicolon n (operands ls unary)) (e : Node) :
    SettlesBelow semicolon (n + 1) (chained level ls e) := by
  have hkinds : semicolon.kind ∉ level.operators := by
    rw [hsemicolon]
    exact (not_mem_operators hls List.mem_cons_self).2
  refine settlesBelow_of_turn (fun e ts hts ih => ?_) e
  refine .of_eq (fun _ hs => chained_eq hls e hs) (.ask hkinds ?_ (.pure e ts))
  rintro t us rfl
  rw [List.length_cons] at hts ih
  refine .bind (hoperand us (by omega)) fun f vs hvs => ?_
  have hle := hvs.length_le
  exact ih _ vs (by omega)

theorem operands_settle (hunary : SettlesBelow semicolon n unary) {ls : List Level}
    (hls : ls <:+ levels) : SettlesBelow semicolon n (operands ls unary) := by
  induction ls with
  | nil => exact hunary
  | cons level ls ih =>
    have hoperand := ih ((List.suffix_cons level ls).trans hls)
    intro ts hts
    refine .bind (hoperand ts hts) fun e vs hvs => ?_
    have hle := hvs.length_le
    exact chained_settles hsemicolon hls hoperand e vs (by omega)

/-! ### Parts separated by commas -/

section

variable {part : Reader α} {tooMany : SyntaxFault}

omit hsemicolon in
theorem Settles.partStep {rest : Reader (List α)} (count : Nat)
    (h : Settles semicolon (separatedStep part rest) ts) :
    Settles semicolon (Reader.partStep part tooMany count rest) ts := by
  by_cases hcount : maxArguments ≤ count
  · exact h.after_fault tooMany fun s _ => if_pos hcount
  · exact h.of_before fun s _ => if_neg hcount

theorem parts_settle (hpart : SettlesBelow semicolon n part)
    (heq : ∀ (count : Nat) (s : Reading), s.Ends → parts part tooMany count s
      = partStep part tooMany count (parts part tooMany (count + 1)) s) (count : Nat) :
    SettlesBelow semicolon n (parts part tooMany count) := by
  have hcomma : semicolon.kind ≠ .comma := by
    rw [hsemicolon]
    decide
  refine settlesBelow_of_turn (fun count ts hts ih => ?_) count
  refine .of_eq (heq count) (.partStep count (.bind (hpart ts hts) fun a vs hvs => ?_))
  have hle := hvs.length_le
  -- It is the comma that makes the tokens fewer: a part may pass none.
  refine .accept hcomma ?_ (.pure _ vs)
  rintro t us rfl
  rw [List.length_cons] at hle
  exact .bind (ih (count + 1) us (by omega)) fun _ _ _ => .pure _ _

theorem listing_settles (hpart : SettlesBelow semicolon n part)
    (heq : ∀ (count : Nat) (s : Reading), s.Ends → parts part tooMany count s
      = partStep part tooMany count (parts part tooMany (count + 1)) s) :
    SettlesBelow semicolon n (listing part tooMany) := fun ts hts =>
  .check _ (fun _ => .pure _ ts) (parts_settle hsemicolon hpart heq 0 ts hts)

end

/-! ### Calls -/

theorem calls_settle (hexpression : SettlesBelow semicolon n expression) (e : Node) :
    SettlesBelow semicolon (n + 1) (calls e) := by
  have hleft : semicolon.kind ≠ .leftParen := by
    rw [hsemicolon]
    decide
  have hright : semicolon.kind ≠ .rightParen := by
    rw [hsemicolon]
    decide
  have hlisting := listing_settles hsemicolon hexpression fun count _ hs => arguments_eq count hs
  refine settlesBelow_of_turn (fun e ts hts ih => ?_) e
  refine .of_eq (fun _ hs => calls_eq e hs) (.accept hleft ?_ (.pure e ts))
  rintro t us rfl
  rw [List.length_cons] at hts ih
  refine .bind (hlisting us (by omega)) fun es vs hvs => .expect hright ?_
  rintro paren ws rfl
  have hle := hvs.length_le
  rw [List.length_cons] at hle
  exact ih _ ws (by omega)

omit hsemicolon in
theorem literal_settles (j : Json) (t : Token) (ts : List Token) :
    Settles semicolon (literal j) (t :: ts) :=
  .after_first (fun _ _ => rfl) (.pure (Node.literal j) ts)

theorem primary_settles (hexpression : SettlesBelow semicolon n expression) :
    SettlesBelow semicolon (n + 1) (primary expression) := by
  have hright : semicolon.kind ≠ .rightParen := by
    rw [hsemicolon]
    decide
  intro ts hts
  refine Settles.of_before (fun s hs => by rw [primary, peek_bind, hs.current]) ?_
  -- The cases are those of the first token; the semicolon begins no expression.
  cases ts with
  | nil =>
    rw [List.headD_nil, hsemicolon]
    exact .fail .expression []
  | cons t ts =>
    rw [List.headD_cons]
    split
    · exact literal_settles _ t ts
    · exact literal_settles _ t ts
    · exact literal_settles _ t ts
    · exact literal_settles _ t ts
    · split
      · exact literal_settles _ t ts
      · exact .fail _ _
    · exact .after_first (fun _ _ => rfl) (.pure (Node.reference t.mark) ts)
    · refine .after_first (fun _ _ => rfl) (.bind (hexpression ts (by simpa using hts)) ?_)
      exact fun e us _ => .expect hright fun _ vs _ => .pure (Node.grouping e) vs
    · exact .fail _ _
    · exact .fail _ _

/-! ### Expressions -/

theorem unary_settles (hexpression : SettlesBelow semicolon n expression)
    (hunary : SettlesBelow semicolon n unary) : SettlesBelow semicolon (n + 1) unary := by
  have hkinds : semicolon.kind ∉ [Kind.bang, .minus] := by
    rw [hsemicolon]
    decide
  intro ts hts
  have hcalled : Settles semicolon (called expression) ts := by
    refine .bind (primary_settles hsemicolon hexpression ts hts) fun e us hus => ?_
    have hle := hus.length_le
    exact calls_settle hsemicolon hexpression e us (by omega)
  refine .of_eq (fun _ hs => unary_eq hs) (.ask hkinds ?_ hcalled)
  rintro op us rfl
  exact .bind (hunary us (by simpa using hts)) fun _ vs _ => .pure _ vs

omit hsemicolon in
/-- A fault of the first token may be recorded after what comes after it. -/
theorem reportFirst_settles {p : Reader α} {a : β} (h : Settles semicolon p ts)
    (fault : SyntaxFault) (t : Token) :
    Settles semicolon (position >>= fun index => advance >>= fun first =>
      p >>= fun _ => report first index fault >>= fun _ => pure a) (t :: ts) := by
  have hfirst (s : Reading) (hs : s.Before (t :: ts) semicolon) : (position >>= fun index =>
      advance >>= fun first => p >>= fun _ => report first index fault >>= fun _ =>
        (pure a : Reader β)) s = (p >>= fun _ => report t s.cursor.index fault >>= fun _ =>
          (pure a : Reader β)) (s.along [t] []) := by
    rw [position_bind, advance_bind, hs.current, along, List.map_nil, past_nil]
    rfl
  -- The error is one of the first token, so its place is counted from there.
  have hpart (s : Reading) (hs : s.Before (t :: ts) semicolon) :
      (∃ next, s.Sees [t] next) ∧ (s.along [t] []).Before ts semicolon := by
    have hs' : s.Before ([t] ++ ts) semicolon := hs
    exact ⟨hs'.part, hs'.along []⟩
  cases h with
  | found b us vs faults hts h =>
    refine .found a (t :: us) vs (faults.map (·.after 1) ++ [⟨t, 0, fault⟩]) (by rw [hts]; rfl)
      fun s hs => ?_
    obtain ⟨⟨next, hsees⟩, hbefore⟩ := hpart s hs
    rw [hfirst s hs, bind_of_ok (h _ hbefore), report_bind, along_along hsees]
    exact congrArg (Reply.ok a) (recorded_along s (t :: us) _ ⟨t, 0, fault⟩)
  | failed fault' us vs faults hts h =>
    refine .failed fault' (t :: us) vs (faults.map (·.after 1)) (by rw [hts]; rfl)
      fun s hs => ?_
    obtain ⟨⟨next, hsees⟩, hbefore⟩ := hpart s hs
    rw [hfirst s hs, bind_of_failed (h _ hbefore), along_along hsees]
    rfl

omit hsemicolon in
/-- What follows the `=` of an assignment.  The error of a bad target is one of the `=`, and is
recorded after those of the value. -/
theorem assigned_settles (target : Node) (h : Settles semicolon expression ts) (equal : Token) :
    Settles semicolon (position >>= fun index => advance >>= fun equals =>
      expression >>= assigned target equals index) (equal :: ts) := by
  by_cases htarget : ∃ m, target = .reference m
  · obtain ⟨m, rfl⟩ := htarget
    exact .after_first (fun _ _ => rfl) (.bind h fun e vs _ => .pure (Node.assign m e) vs)
  · have hother : assigned target = fun equals index _ =>
        report equals index .assignmentTarget >>= fun _ => pure target := by
      funext equals index value
      exact assigned_of_other (fun m heq => htarget ⟨m, heq⟩) equals index value
    rw [hother]
    exact reportFirst_settles h .assignmentTarget equal

theorem expression_settles (hexpression : SettlesBelow semicolon n expression)
    (hunary : SettlesBelow semicolon (n + 1) unary) :
    SettlesBelow semicolon (n + 1) expression := by
  have hkinds : semicolon.kind ∉ [Kind.equal] := by
    rw [hsemicolon]
    decide
  intro ts hts
  refine .of_eq (fun _ hs => expression_eq hs) ?_
  rw [assignment_eq]
  refine .bind (operands_settle hsemicolon hunary (List.suffix_refl _) ts hts) fun e us hus => ?_
  have hle := hus.length_le
  refine .check_first hkinds ?_ (.pure e us)
  rintro equal us rfl
  rw [List.length_cons] at hle
  exact assigned_settles e (hexpression us (by omega)) equal

/-- Whatever lies in front of a semicolon, the readers of expressions settle. -/
theorem expressions_settle (n : Nat) :
    SettlesBelow semicolon n expression ∧ SettlesBelow semicolon n unary := by
  induction n with
  | zero =>
    exact ⟨fun _ hts => absurd hts (Nat.not_lt_zero _),
      fun _ hts => absurd hts (Nat.not_lt_zero _)⟩
  | succ n ih =>
    -- The operands of an expression may be as long as itself, those of a sign are shorter.
    have hunary := unary_settles hsemicolon ih.1 ih.2
    exact ⟨expression_settles hsemicolon ih.1 hunary, hunary⟩

theorem expression_settled (ts : List Token) : Settles semicolon expression ts :=
  (expressions_settle hsemicolon (ts.length + 1)).1 ts (Nat.lt_succ_self _)

end

end Reader

end LoxLang
