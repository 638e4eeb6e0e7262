/-
What readers do step by step.

* `Reading.rest` are the tokens still to be read, and `Reading.skip` moves past some of them.
* `Reader.accept_bind`, `Reader.expect_bind`, ... — what a reader does that begins with one of
  the basic readers.
* `Reply.Honest` is what is promised of every reader: it is not stuck, it fails only after it
  has recorded an error, and what it finds without recording an error is right.
  `Reply.Honest.bind` and `Reply.Honest.skip` follow a reader step by step.
-/
import LoxLang.Proofs.Token.Scan
import LoxLang.Reader.Statement

namespace LoxLang

namespace Reading

/-- The tokens that are still to be read. -/
def rest (s : Reading) : List Token := s.cursor.current :: s.cursor.upcoming

/-- The state some tokens further. -/
def skip : Reading → Nat → Reading
  | s, 0 => s
  | s, n + 1 => skip { s with cursor := s.cursor.next } n

@[simp] theorem skip_zero (s : Reading) : s.skip 0 = s := rfl

theorem skip_succ (s : Reading) (n : Nat) :
    s.skip (n + 1) = skip { s with cursor := s.cursor.next } n := rfl

@[simp] theorem skip_skip (s : Reading) (m n : Nat) : (s.skip m).skip n = s.skip (m + n) := by
  induction m generalizing s with
  | zero => rw [skip_zero, Nat.zero_add]
  | succ m ih => rw [Nat.succ_add, skip_succ, skip_succ, ih]

/-- Some tokens are passed one part after the other. -/
theorem skip_append (s : Reading) (ts us : List Token) :
    s.skip (ts ++ us).length = (s.skip ts.length).skip us.length := by
  rw [skip_skip, List.length_append]

theorem skip_cons (s : Reading) (t : Token) (ts : List Token) :
    s.skip (t :: ts).length = (s.skip 1).skip ts.length := by
  rw [skip_skip, List.length_cons, Nat.add_comm]

@[simp] theorem skip_errors (s : Reading) (n : Nat) : (s.skip n).errors = s.errors := by
  induction n generalizing s with
  | zero => rfl
  | succ n ih => rw [skip_succ, ih]

@[simp] theorem skip_heard (s : Reading) (n : Nat) : (s.skip n).heard = s.heard := by
  induction n generalizing s with
  | zero => rfl
  | succ n ih => rw [skip_succ, ih]

@[simp] theorem skip_depth (s : Reading) (n : Nat) : (s.skip n).depth = s.depth := by
  induction n generalizing s with
  | zero => rfl
  | succ n ih => rw [skip_succ, ih]

theorem skip_withDepth (s : Reading) (d n : Nat) :
    { s with depth := d }.skip n = { s.skip n with depth := d } := by
  induction n generalizing s with
  | zero => rfl
  | succ n ih => rw [skip_succ, skip_succ, ← ih]

theorem rest_ne_nil (s : Reading) : s.rest ≠ [] := List.cons_ne_nil _ _

theorem length_rest (s : Reading) : s.rest.length = s.cursor.upcoming.length + 1 := rfl

/-- A bound on the tokens that are left is not zero, as there is a current one. -/
theorem exists_succ_of_le {s : Reading} {n : Nat} (h : s.rest.length ≤ n) : ∃ i, n = i + 1 :=
  ⟨n - 1, by rw [length_rest] at h; omega⟩

/-- A bound on the levels that are needed is not zero. -/
theorem exists_succ_of_levels {s : Reading} {n : Nat} (h : 2 * s.rest.length ≤ n + 1) :
    ∃ i, n = i + 1 :=
  ⟨n - 1, by rw [length_rest] at h; omega⟩

theorem bound_eq (s : Reading) : s.bound = 2 * s.rest.length := by
  rw [bound, length_rest]
  omega

/-- Moving on passes the current token, unless that ends the source. -/
theorem rest_skip_one {s : Reading} (hs : EndsOnce s.rest)
    (hcurrent : s.cursor.current.kind ≠ .endOfFile) :
    s.rest = s.cursor.current :: (s.skip 1).rest := by
  have hupcoming : s.cursor.upcoming ≠ [] := fun h => hcurrent (hs.tail_eq_nil_iff.mpr h)
  obtain ⟨⟨previous, current, upcoming, index⟩, errors, heard, depth⟩ := s
  cases upcoming with
  | nil => exact absurd rfl hupcoming
  | cons t ts =>
    have hend : (current.kind == .endOfFile) = false := by simpa using hcurrent
    simp [skip_succ, rest, Cursor.next, Cursor.isAtEnd, hend]

/-- Moving on at the end of the source changes nothing. -/
theorem skip_one_of_end {s : Reading} (hcurrent : s.cursor.current.kind = .endOfFile) :
    s.skip 1 = s := by
  simp [skip_succ, Cursor.next, Cursor.isAtEnd, hcurrent]

end Reading

/-! ### The basic readers -/

namespace Reader

variable {α β : Type} {s : Reading}

theorem bind_of_ok {p : Reader α} {q : α → Reader β} {a : α} {s' : Reading}
    (h : p s = .ok a s') : (p >>= q) s = q a s' := by
  simp only [bind, h]

theorem bind_of_failed {p : Reader α} {q : α → Reader β} {s' : Reading}
    (h : p s = .failed s') : (p >>= q) s = .failed s' := by
  simp only [bind, h]

instance : LawfulMonad Reader := LawfulMonad.mk' Reader
  (by
    intro α p
    funext s
    show (match p s with | .ok a s => .ok a s | .failed s => .failed s | .stuck => .stuck) = p s
    cases p s <;> rfl)
  (fun _ _ => rfl)
  (by
    intro α β γ p q r
    funext s
    simp only [bind]
    cases p s <;> rfl)

theorem check_bind (kinds : List Kind) (q : Bool → Reader β) :
    (check kinds >>= q) s = q (kinds.contains s.cursor.current.kind) s := rfl

theorem peek_bind (q : Token → Reader β) : (peek >>= q) s = q s.cursor.current s := rfl

theorem position_bind (q : Nat → Reader β) : (position >>= q) s = q s.cursor.index s := rfl

theorem advance_bind (q : Token → Reader β) :
    (advance >>= q) s = q s.cursor.current (s.skip 1) := rfl

theorem bounded_apply (p : Nat → Reader α) : bounded p s = p (2 * s.rest.length) s := by
  rw [bounded, Reading.bound_eq]

theorem expression_apply : expression s = expressionUpTo (2 * s.rest.length) s :=
  bounded_apply _

theorem declaration_apply : declaration s = declarationUpTo (2 * s.rest.length) s :=
  bounded_apply _

theorem accept_bind (kind : Kind) (q : Bool → Reader β) :
    (accept kind >>= q) s
      = if s.cursor.current.kind = kind then q true (s.skip 1) else q false s := by
  have haccept : accept kind s
      = if s.cursor.current.kind = kind then .ok true (s.skip 1) else .ok false s := by
    rw [accept, check_bind]
    by_cases h : s.cursor.current.kind = kind
    · rw [if_pos h, h, if_pos (by simp)]
      rfl
    · rw [if_neg h, if_neg (by simpa using h)]
      rfl
  split
  · rename_i h
    exact bind_of_ok (by rw [haccept, if_pos h])
  · rename_i h
    exact bind_of_ok (by rw [haccept, if_neg h])

theorem expect_apply (kind : Kind) (fault : SyntaxFault) :
    expect kind fault s = if s.cursor.current.kind = kind
      then .ok s.cursor.current (s.skip 1) else fail fault s := by
  rw [expect, check_bind]
  by_cases h : s.cursor.current.kind = kind
  · rw [if_pos h, h, if_pos (by simp)]
    rfl
  · rw [if_neg h, if_neg (by simpa using h)]

/-- The state in which one more error has been recorded. -/
def recorded (s : Reading) (e : SyntaxError) : Reading :=
  { s with errors := s.errors ++ [e], heard := s.heard ++ [e] }

/-- A fault of the current token. -/
def faultHere (s : Reading) (fault : SyntaxFault) : SyntaxError :=
  ⟨s.cursor.current, s.cursor.index, fault⟩

theorem fail_apply (fault : SyntaxFault) :
    (fail fault : Reader α) s = .failed (recorded s (faultHere s fault)) := rfl

theorem report_bind (t : Token) (index : Nat) (fault : SyntaxFault) (q : Unit → Reader β) :
    (report t index fault >>= q) s = q () (recorded s ⟨t, index, fault⟩) := rfl

theorem expect_bind (kind : Kind) (fault : SyntaxFault) (q : Token → Reader β) :
    (expect kind fault >>= q) s = if s.cursor.current.kind = kind
      then q s.cursor.current (s.skip 1) else .failed (recorded s (faultHere s fault)) := by
  split
  · rename_i h
    exact bind_of_ok (by rw [expect_apply, if_pos h])
  · rename_i h
    exact bind_of_failed (by rw [expect_apply, if_neg h, fail_apply])

/-! ### Readers made of these -/

/-- What a token of a given kind announces, or nothing. -/
def orMissing (kind : Kind) (p : Reader Node) : Reader Node := do
  if ← accept kind then p else pure .missing

theorem orMissing_apply (kind : Kind) (p : Reader Node) :
    orMissing kind p s
      = if s.cursor.current.kind = kind then p (s.skip 1) else .ok .missing s := by
  rw [orMissing, accept_bind]
  split
  · rfl
  · rfl

theorem orMissing_bind (kind : Kind) (p : Reader Node) (q : Node → Reader β) :
    orMissing kind p >>= q
      = accept kind >>= fun b => if b then p >>= q else pure .missing >>= q := by
  rw [orMissing, bind_assoc]
  congr 1
  funext b
  cases b <;> rfl

/-- A condition in parentheses. -/
def parenthesized (before after : SyntaxFault) : Reader Node := do
  let _ ← expect .leftParen before
  let condition ← expression
  let _ ← expect .rightParen after
  return condition

theorem variableFrom_eq : variableFrom = do
    let name ← expect .identifier .variableName
    let e ← orMissing .equal expression
    let _ ← expect .semicolon .semicolonAfterVariable
    return .declare name.mark e := by
  simp only [orMissing_bind]
  rfl

theorem ifFrom_eq (statement : Reader Node) : ifFrom statement = do
    let condition ← parenthesized .parenAfterIf .parenAfterIfCondition
    let thenBranch ← statement
    let elseBranch ← orMissing .elseWord statement
    return .branch condition thenBranch elseBranch := by
  simp only [orMissing_bind, parenthesized, bind_assoc, pure_bind]
  rfl

theorem whileFrom_eq (statement : Reader Node) : whileFrom statement = do
    let condition ← parenthesized .parenAfterWhile .parenAfterWhileCondition
    let body ← statement
    return .loop condition body := by
  simp only [parenthesized, bind_assoc, pure_bind]
  rfl

/-- The parts of a `for` in front of its body. -/
def forClauses : Reader (Node × Node × Node) := do
  let _ ← expect .leftParen .parenAfterFor
  let initializer ← forInitializer
  let condition ← optionalBefore .semicolon
  let _ ← expect .semicolon .semicolonAfterLoopCondition
  let increment ← optionalBefore .rightParen
  let _ ← expect .rightParen .parenAfterForClauses
  return (initializer, condition, increment)

theorem forFrom_eq (statement : Reader Node) : forFrom statement = do
    let clauses ← forClauses
    let body ← statement
    return forLoop clauses.1 clauses.2.1 clauses.2.2 body := by
  simp only [forClauses, bind_assoc, pure_bind]
  rfl

end Reader

/-! ### Honest replies -/

/-- From one state to another these tokens have been passed, and perhaps some errors been
recorded. -/
structure Reading.Passed (s : Reading) (ts : List Token) (s' : Reading) : Prop where
  rest : s.rest = ts ++ s'.rest
  errors : s.errors <+: s'.errors
  depth : s'.depth = s.depth

namespace Reading.Passed

variable {s s' s'' : Reading} {ts us : List Token}

theorem refl (s : Reading) : s.Passed [] s := ⟨rfl, List.prefix_refl _, rfl⟩

theorem trans (h : s.Passed ts s') (h' : s'.Passed us s'') : s.Passed (ts ++ us) s'' where
  rest := by rw [h.rest, h'.rest, List.append_assoc]
  errors := h.errors.trans h'.errors
  depth := h'.depth.trans h.depth

theorem endsOnce (h : s.Passed ts s') (hs : EndsOnce s.rest) : EndsOnce s'.rest := by
  rw [h.rest] at hs
  exact (hs.of_append s'.rest_ne_nil).1

theorem length (h : s.Passed ts s') : s.rest.length = ts.length + s'.rest.length := by
  rw [h.rest, List.length_append]

theorem skip_one (hs : EndsOnce s.rest) (hcurrent : s.cursor.current.kind ≠ .endOfFile) :
    s.Passed [s.cursor.current] (s.skip 1) where
  rest := rest_skip_one hs hcurrent
  errors := ⟨[], by rw [skip_errors, List.append_nil]⟩
  depth := skip_depth s 1

theorem recorded (s : Reading) (e : SyntaxError) : s.Passed [] (Reader.recorded s e) :=
  ⟨rfl, List.prefix_append _ _, rfl⟩

/-- Where no error is recorded on the whole way, none is recorded on either part of it. -/
theorem errors_eq (h : s.Passed ts s') (h' : s'.Passed us s'') (heq : s''.errors = s.errors) :
    s'.errors = s.errors ∧ s''.errors = s'.errors := by
  have hlength : s'.errors.length ≤ s.errors.length := by
    rw [← heq]
    exact h'.errors.length_le
  have heq' := (h.errors.eq_of_length_le hlength).symm
  exact ⟨heq', heq.trans heq'.symm⟩

end Reading.Passed

/-- What is promised of a reader that began in the state `s`.  It is not stuck.  If it has
failed, it has recorded an error.  If it has found something, it has passed at least `least`
tokens, and if it has done so without recording an error, what it has found is `right`, given
the tokens passed and the one that comes next. -/
def Reply.Honest {α : Type} (s : Reading) (least : Nat)
    (right : α → List Token → Token → Prop) : Reply α → Prop
  | .ok a s' => ∃ ts, s.Passed ts s' ∧ least ≤ ts.length ∧
      (s'.errors = s.errors → right a ts s'.cursor.current)
  | .failed s' => (∃ ts, s.Passed ts s') ∧ s'.errors ≠ s.errors
  | .stuck => False

namespace Reply.Honest

open Reading Reader

variable {α β : Type} {s : Reading} {j l m : Nat} {right : α → List Token → Token → Prop}
  {right' : β → List Token → Token → Prop}

theorem mono {right'' : α → List Token → Token → Prop} {r : Reply α} (h : r.Honest s l right)
    (hl : m ≤ l) (hright : ∀ a ts next, right a ts next → right'' a ts next) :
    r.Honest s m right'' := by
  cases r with
  | ok a s' =>
    obtain ⟨ts, hts, hlength, ha⟩ := h
    exact ⟨ts, hts, Nat.le_trans hl hlength, fun heq => hright _ _ _ (ha heq)⟩
  | failed s' => exact h
  | stuck => exact h

theorem pure {a : α} (h : right a [] s.cursor.current) :
    Honest s 0 right ((Pure.pure a : Reader α) s) :=
  ⟨[], .refl s, Nat.le_refl _, fun _ => h⟩

theorem failed (e : SyntaxError) : Honest s l right (.failed (Reader.recorded s e)) := by
  refine ⟨⟨[], .recorded s e⟩, fun h => ?_⟩
  have hlength := congrArg List.length h
  simp [Reader.recorded] at hlength

/-- A reader that goes on from where some tokens have been passed. -/
theorem after {s' : Reading} {ts : List Token} {r : Reply α} (hts : s.Passed ts s')
    (h : r.Honest s' l fun a us next => s'.errors = s.errors → right a (ts ++ us) next)
    (hl : m ≤ ts.length + l) : r.Honest s m right := by
  cases r with
  | ok a s'' =>
    obtain ⟨us, hus, hlength, ha⟩ := h
    refine ⟨ts ++ us, hts.trans hus, ?_, fun heq => ?_⟩
    · rw [List.length_append]
      omega
    · obtain ⟨heq', heq''⟩ := hts.errors_eq hus heq
      exact ha heq'' heq'
  | failed s'' =>
    obtain ⟨⟨us, hus⟩, hne⟩ := h
    exact ⟨⟨ts ++ us, hts.trans hus⟩, fun heq => hne (hts.errors_eq hus heq).2⟩
  | stuck => exact h

/-- A reader after another one. -/
theorem bind {p : Reader α} {q : α → Reader β} (hs : EndsOnce s.rest)
    (hp : (p s).Honest s l right)
    (hq : ∀ a ts s', EndsOnce s'.rest → s.rest.length = ts.length + s'.rest.length →
      s'.depth = s.depth → l ≤ ts.length → (q a s').Honest s' j fun b us next =>
        right a ts s'.cursor.current → right' b (ts ++ us) next)
    (hl : m ≤ l + j) : ((p >>= q) s).Honest s m right' := by
  show Honest s m right'
    (match p s with | .ok a s => q a s | .failed s => .failed s | .stuck => .stuck)
  cases hps : p s with
  | ok a s' =>
    rw [hps] at hp
    obtain ⟨ts, hts, hleast, ha⟩ := hp
    have h := hq a ts s' (hts.endsOnce hs) hts.length hts.depth hleast
    -- An error recorded by the first reader stays, so none was if there is none now.
    refine after hts (h.mono (Nat.le_refl _) ?_) (by omega)
    exact fun b us next hb heq => hb (ha heq)
  | failed s' =>
    rw [hps] at hp
    exact hp
  | stuck =>
    rw [hps] at hp
    exact hp

/-- A reader that goes on after the current token. -/
theorem skip {r : Reply α} (hs : EndsOnce s.rest) (hcurrent : s.cursor.current.kind ≠ .endOfFile)
    (h : EndsOnce (s.skip 1).rest → s.rest.length = (s.skip 1).rest.length + 1 →
      r.Honest (s.skip 1) l fun a us next => right a (s.cursor.current :: us) next)
    (hl : m ≤ l + 1) : r.Honest s m right := by
  have hskip := Passed.skip_one hs hcurrent
  have hlength := hskip.length
  rw [List.length_singleton] at hlength
  refine after hskip ((h (hskip.endsOnce hs) (by omega)).mono (Nat.le_refl _) ?_) ?_
  · exact fun _ _ _ ha _ => ha
  · rw [List.length_singleton]
    omega

/-- A reader that goes on after a token of a given kind. -/
theorem expect {q : Token → Reader β} {kind : Kind} {fault : SyntaxFault} (hs : EndsOnce s.rest)
    (hkind : kind ≠ .endOfFile)
    (hq : s.cursor.current.kind = kind → EndsOnce (s.skip 1).rest →
      s.rest.length = (s.skip 1).rest.length + 1 → (q s.cursor.current (s.skip 1)).Honest
        (s.skip 1) l fun b us next => right' b (s.cursor.current :: us) next)
    (hl : m ≤ l + 1) : ((Reader.expect kind fault >>= q) s).Honest s m right' := by
  rw [expect_bind]
  split
  · rename_i hcurrent
    exact .skip hs (hcurrent ▸ hkind) (hq hcurrent) hl
  · exact .failed _

/-- A reader that goes on after an error, so that nothing need be right. -/
theorem recorded (e : SyntaxError) {r : Reply α}
    (h : r.Honest (Reader.recorded s e) l fun _ _ _ => True) : r.Honest s l right := by
  refine after (.recorded s e) (h.mono (Nat.le_refl _) fun _ _ _ _ heq => ?_) (by simp)
  have hlength := congrArg List.length heq
  simp [Reader.recorded] at hlength

end Reply.Honest

/-- What is promised of a reader, wherever there are at most `k` tokens left to read. -/
def Reader.Reads {α : Type} (k least : Nat) (right : Nat → α → List Token → Token → Prop)
    (p : Reader α) : Prop :=
  ∀ s, EndsOnce s.rest → s.rest.length ≤ k → (p s).Honest s least (right s.depth)

/-- Nothing is promised where no token is left, for there always is one. -/
theorem Reader.Reads.zero {α : Type} {least : Nat} {right : Nat → α → List Token → Token → Prop}
    {p : Reader α} : p.Reads 0 least right := by
  intro s _ hlength
  rw [Reading.length_rest] at hlength
  omega

end LoxLang
