/-
Reading comes to its end.

Where the tokens that are left end as those of a source text do (`Reading.Ends`), no reader of
declarations is stuck and none fails:

* `resume_eq` — going on after a fault stops at the first place where a statement may begin, and
  a token has been passed wherever it looks at the one before;
* `declaration_ok` — a declaration is found or dropped, and at least one token is passed;
* `declaration_eq`, `statement_eq`, `declarations_eq`, ... — the readers are made of themselves,
  so that the bounds they are given do not show;
* `reading_ends_cleanly` — whole programs.
-/
import LoxLang.Proofs.Reader.Bounds
import LoxLang.Program

namespace LoxLang

/-- The tokens that are left end as those of a source text do. -/
def Reading.Ends (s : Reading) : Prop := EndsOnce s.rest

namespace Reading

variable {s : Reading}

theorem isAtEnd_iff : s.cursor.isAtEnd = true ↔ s.cursor.current.kind = .endOfFile := by
  simp [Cursor.isAtEnd]

theorem Ends.skip_one (hs : s.Ends) : (s.skip 1).Ends := by
  by_cases hend : s.cursor.current.kind = .endOfFile
  · rwa [skip_one_of_end hend]
  · exact (Passed.skip_one hs hend).endsOnce hs

instance : Stable Ends where
  next := Ends.skip_one
  recorded _ hs := hs
  withDepth _ hs := hs

/-- Moving on passes a token: the tokens do not stop without the one that ends a source. -/
theorem Ends.passed? (hs : s.Ends) : s.cursor.passed? = some s.cursor.current := by
  rw [Cursor.passed?, if_neg]
  intro hstop
  simp only [Bool.and_eq_true, Bool.not_eq_true', List.isEmpty_iff] at hstop
  have hend := (EndsOnce.tail_eq_nil_iff hs).mpr hstop.2
  rw [isAtEnd_iff.mpr hend] at hstop
  cases hstop.1

/-- Moving on is counted, unless the source has ended. -/
theorem Ends.index_skip_one (hs : s.Ends) (hcurrent : s.cursor.current.kind ≠ .endOfFile) :
    (s.skip 1).cursor.index = s.cursor.index + 1 := by
  have hend : s.cursor.isAtEnd = false := by simpa [Cursor.isAtEnd] using hcurrent
  have hupcoming : s.cursor.upcoming ≠ [] := fun hnil =>
    hcurrent ((EndsOnce.tail_eq_nil_iff hs).mpr hnil)
  obtain ⟨t, ts, hts⟩ := List.exists_cons_of_ne_nil hupcoming
  simp [skip_succ, Cursor.next, hend, hts]

/-- Where a move did not end at the end of the source, it passed a token. -/
theorem previous_skip (s : Reading) (n : Nat) (h : (s.skip (n + 1)).cursor.isAtEnd = false) :
    (s.skip (n + 1)).cursor.previous = some (s.skip n).cursor.current := by
  rw [← skip_skip] at h ⊢
  generalize s.skip n = s at h ⊢
  obtain ⟨⟨previous, current, upcoming, index⟩, errors, heard, depth⟩ := s
  simp only [skip_succ, skip_zero, Cursor.next] at h ⊢
  split at h
  · rename_i hend
    rw [hend] at h
    cases h
  · rename_i hend
    rw [if_neg hend]
    cases upcoming with
    | nil => rfl
    | cons t ts => rfl

/-- A place where reading goes on after a fault. -/
def atBoundary (s : Reading) : Bool :=
  s.cursor.isAtEnd || s.cursor.previous.any (·.kind == .semicolon) ||
    s.cursor.check Reader.statementWords

end Reading

theorem Reply.Honest.ne_stuck {α : Type} {s : Reading} {r : Reply α} {l : Nat}
    {right : α → List Token → Token → Prop} (h : r.Honest s l right) : r ≠ .stuck := by
  rintro rfl
  exact h

namespace Reader

open Reading

variable {s : Reading}

/-! ### Going on after a fault -/

theorem skipToBoundary_eq {n : Nat} (hs : s.Ends) (hn : s.rest.length ≤ n) :
    ∃ k, skipToBoundary n s = .ok () (s.skip k) ∧ (s.skip k).atBoundary = true ∧
      ∀ i < k, (s.skip i).atBoundary = false := by
  induction n generalizing s with
  | zero =>
    rw [length_rest] at hn
    omega
  | succ n ih =>
    rw [skipToBoundary]
    by_cases hstop : s.atBoundary = true
    · exact ⟨0, if_pos hstop, hstop, by omega⟩
    · have hcurrent : s.cursor.current.kind ≠ .endOfFile := by
        intro hend
        exact hstop (by simp [atBoundary, isAtEnd_iff.mpr hend])
      have hlength := congrArg List.length (rest_skip_one hs hcurrent)
      rw [List.length_cons] at hlength
      obtain ⟨k, hk, hboundary, hleast⟩ := ih hs.skip_one (by omega)
      refine ⟨k + 1, (if_neg hstop).trans hk, hboundary, fun i hi => ?_⟩
      cases i with
      | zero => simpa using hstop
      | succ i => exact hleast i (by omega)

/-- Reading goes on at the first place after the current token where a statement may begin. -/
theorem resume_eq (hs : s.Ends) :
    ∃ k, resume s = .ok () (s.skip (k + 1)) ∧ (s.skip (k + 1)).atBoundary = true ∧
      ∀ i < k, (s.skip (i + 1)).atBoundary = false := by
  rw [resume, advance_bind, bounded_apply]
  exact skipToBoundary_eq hs.skip_one (by omega)

/-- Wherever it is asked after a fault which token came before, there is one. -/
theorem resume_previous (hs : s.Ends) :
    ∃ k, resume s = .ok () (s.skip (k + 1)) ∧ ∀ i ≤ k,
      (s.skip (i + 1)).cursor.isAtEnd = true ∨
        (s.skip (i + 1)).cursor.previous = some (s.skip i).cursor.current := by
  obtain ⟨k, hk, -, -⟩ := resume_eq hs
  refine ⟨k, hk, fun i _ => ?_⟩
  cases hend : (s.skip (i + 1)).cursor.isAtEnd with
  | true => exact .inl rfl
  | false => exact .inr (previous_skip s i hend)

/-- A declaration with a fault is dropped, and no fault gets further than that. -/
theorem recovering_ok {p : Reader Node} {l : Nat} {right : Node → List Token → Token → Prop}
    (hs : s.Ends) (hp : (p s).Honest s l right) :
    ∃ found ts s', recovering p s = .ok found s' ∧ s.Passed ts s' := by
  rw [recovering]
  cases hps : p s with
  | ok e s₁ =>
    rw [hps] at hp
    obtain ⟨ts, hts, -, -⟩ := hp
    exact ⟨some e, ts, s₁, rfl, hts⟩
  | failed s₁ =>
    rw [hps] at hp
    obtain ⟨⟨ts, hts⟩, -⟩ := hp
    have hs₁ : s₁.Ends := hts.endsOnce hs
    have hhonest := resume_honest hs₁
    obtain ⟨k, hk, -, -⟩ := resume_eq hs₁
    rw [hk] at hhonest
    obtain ⟨us, hus, -, -⟩ := hhonest
    exact ⟨none, ts ++ us, s₁.skip (k + 1), by simp only [hk], hts.trans hus⟩
  | stuck => exact absurd hps hp.ne_stuck

/-! ### Readers without bounds -/

/-- An operand of a binary operator. -/
def unary : Reader Node := bounded unaryUpTo

/-- A statement. -/
def statement : Reader Node := bounded statementUpTo

/-- Declarations up to where a reader says that there are no more. -/
def declarations (stop : Reader Bool) : Reader (List Node) :=
  bounded (declarationsUntil stop declaration)

theorem unary_apply : unary s = unaryUpTo (2 * s.rest.length) s := bounded_apply _

theorem statement_apply : statement s = statementUpTo (2 * s.rest.length) s := bounded_apply _

theorem unary_honest (hs : s.Ends) :
    (unary s).Honest s 1 fun e ts _ => Grammar.Expression .unary ts e := by
  rw [unary_apply]
  exact (upTo_reads _).2 _ (by omega) s hs (Nat.le_refl _)

theorem statement_honest (hs : s.Ends) : (statement s).Honest s 1 (Closed s.depth) := by
  rw [statement_apply]
  exact (statements_upTo_reads _).2 _ (by omega) s hs (Nat.le_refl _)

/-- A declaration, with a bound that is enough for the readers it is made of. -/
theorem declaration_of_length {k : Nat} (hk : s.rest.length = k + 1) :
    declaration s = recovering
      (declarationStep (declarationUpTo (2 * k + 1)) (statementUpTo (2 * k + 1))) s := by
  rw [declaration_apply, hk, Nat.mul_succ, declarationUpTo]

theorem declarationStep_of_length {k : Nat} (hs : s.Ends) (hk : s.rest.length = k + 1) :
    (declarationStep (declarationUpTo (2 * k + 1)) (statementUpTo (2 * k + 1)) s).Honest s 1
      fun e ts _ => Grammar.Statement s.depth .declaration ts e :=
  declarationStep_honest ((statements_upTo_reads _).1 k (by omega))
    ((statements_upTo_reads _).2 (k + 1) (by omega)) hs (by omega)

/-- A declaration is found or dropped, and unless the source has ended a token is passed. -/
theorem declaration_ok (hs : s.Ends) :
    ∃ found ts s', declaration s = .ok found s' ∧ s.Passed ts s' ∧
      (s.cursor.isAtEnd = false → ts ≠ []) := by
  have hk : s.rest.length = s.cursor.upcoming.length + 1 := length_rest s
  have hstep := declarationStep_of_length hs hk
  obtain ⟨found, ts, s', hfound, hts⟩ := recovering_ok hs hstep
  refine ⟨found, ts, s', (declaration_of_length hk).trans hfound, hts, fun hend hnil => ?_⟩
  have hcurrent : s.cursor.current.kind ≠ .endOfFile := by
    intro heq
    rw [isAtEnd_iff.mpr heq] at hend
    cases hend
  have hhonest := recovering_honest hs hcurrent hstep
  rw [hfound] at hhonest
  obtain ⟨us, hus, hleast, -⟩ := hhonest
  have hlength := hts.length
  have hlength' := hus.length
  rw [hnil, List.length_nil] at hlength
  omega

theorem declaration_ne_stuck (hs : s.Ends) : declaration s ≠ .stuck := by
  obtain ⟨found, ts, s', hfound, -⟩ := declaration_ok hs
  rw [hfound]
  nofun

/-- What is not stuck with the bound that it finds does the same with any other bound. -/
theorem upTo_below_bounded {α : Type} {p : Nat → Reader α}
    (hp : ∀ m n, m ≤ n → Below Ends (p m) (p n)) (hstuck : ∀ s, s.Ends → bounded p s ≠ .stuck)
    (n : Nat) : Below Ends (p n) (bounded p) := by
  intro s hs
  rcases Nat.le_total n s.bound with hle | hle
  · exact hp _ _ hle s hs
  · exact (hp _ _ hle s hs).symm_of_ne_stuck (hstuck s hs)

theorem expressionUpTo_below (n : Nat) : Below Ends (expressionUpTo n) expression :=
  upTo_below_bounded (fun _ _ h => (expressions_upTo_below h).1)
    (fun _ hs => (expression_honest hs).ne_stuck) n

theorem unaryUpTo_below (n : Nat) : Below Ends (unaryUpTo n) unary :=
  upTo_below_bounded (fun _ _ h => (expressions_upTo_below h).2)
    (fun _ hs => (unary_honest hs).ne_stuck) n

theorem declarationUpTo_below (n : Nat) : Below Ends (declarationUpTo n) declaration :=
  upTo_below_bounded (fun _ _ h => (statements_upTo_below h).1)
    (fun _ hs => declaration_ne_stuck hs) n

theorem statementUpTo_below (n : Nat) : Below Ends (statementUpTo n) statement :=
  upTo_below_bounded (fun _ _ h => (statements_upTo_below h).2)
    (fun _ hs => (statement_honest hs).ne_stuck) n

/-! ### Readers that are made of themselves -/

/-- A reader that is not stuck does what its step does with readers that have no bound. -/
theorem bounded_eq {α : Type} {p : Nat → Reader α} {step : Reader α} (hs : s.Ends)
    (hstuck : bounded p s ≠ .stuck) (hstep : ∀ n, Below Ends (p (n + 1)) step) :
    bounded p s = step s :=
  (hstep (2 * s.cursor.upcoming.length + 1) s hs).eq_of_ne_stuck hstuck

theorem expression_eq (hs : s.Ends) : expression s = assignment expression unary s :=
  bounded_eq hs (expression_honest hs).ne_stuck fun n =>
    assignment_below (expressionUpTo_below n) (unaryUpTo_below n)

theorem unary_eq (hs : s.Ends) : unary s = prefixed expression unary s :=
  bounded_eq hs (unary_honest hs).ne_stuck fun n =>
    prefixed_below (expressionUpTo_below n) (unaryUpTo_below n)

theorem declaration_eq (hs : s.Ends) :
    declaration s = recovering (declarationStep declaration statement) s :=
  bounded_eq hs (declaration_ne_stuck hs) fun n =>
    recovering_below (declarationStep_below (declarationUpTo_below n) (statementUpTo_below n))

theorem statement_eq (hs : s.Ends) : statement s = statementStep declaration statement s :=
  bounded_eq hs (statement_honest hs).ne_stuck fun n =>
    statementStep_below (declarationUpTo_below n) (statementUpTo_below n)

/-! ### Loops of declarations -/

/-- Declarations are read until the current token is one of some, among which is the one that
ends the source. -/
structure EndsBefore (stop : Reader Bool) (stops : Token → Bool) : Prop where
  asks : ∀ s, stop s = .ok (stops s.cursor.current) s
  atEnd : ∀ t : Token, t.kind = .endOfFile → stops t = true

theorem endsBefore_end : EndsBefore atEnd fun t => t.kind == .endOfFile where
  asks _ := rfl
  atEnd t ht := by simp [ht]

theorem endsBefore_blockEnd :
    EndsBefore atBlockEnd fun t => [Kind.rightBrace].contains t.kind || t.kind == .endOfFile where
  asks _ := rfl
  atEnd t ht := by simp [ht]

/-- One turn of a loop of declarations, and the rest of the loop. -/
def turn (stop : Reader Bool) (rest : Reader (List Node)) : Reader (List Node) := do
  if ← stop then return []
  else
    let first ← declaration
    let others ← rest
    return first.toList ++ others

variable {stop : Reader Bool} {stops : Token → Bool}

theorem EndsBefore.below (h : EndsBefore stop stops) : Below Ends stop stop := by
  intro s hs
  rw [h.asks]
  exact .ok hs

/-- A loop of declarations ends in front of a token at which it stops, and none of its turns
fails. -/
theorem declarationsUntil_ok (h : EndsBefore stop stops) {n : Nat} (hs : s.Ends)
    (hn : s.rest.length ≤ n) :
    ∃ es ts s', declarationsUntil stop declaration n s = .ok es s' ∧ s.Passed ts s' ∧
      stops s'.cursor.current = true := by
  induction n generalizing s with
  | zero =>
    rw [length_rest] at hn
    omega
  | succ n ih =>
    rw [declarationsUntil, bind_of_ok (h.asks s)]
    split
    · rename_i hstops
      exact ⟨[], [], s, rfl, .refl s, hstops⟩
    · rename_i hstops
      have hend : s.cursor.isAtEnd = false := by
        rw [Bool.eq_false_iff]
        exact fun hend => hstops (h.atEnd _ (isAtEnd_iff.mp hend))
      -- The turn passes at least one token, so that the rest of the loop has bound enough.
      obtain ⟨found, ts, s₁, hfound, hts, hne⟩ := declaration_ok hs
      have hpositive := List.length_pos_iff.mpr (hne hend)
      have hlength := hts.length
      obtain ⟨es, us, s₂, hes, hus, hstops₂⟩ := ih (hts.endsOnce hs) (by omega)
      refine ⟨found.toList ++ es, ts ++ us, s₂, ?_, hts.trans hus, hstops₂⟩
      rw [bind_of_ok hfound, bind_of_ok hes]
      rfl

theorem declarations_ok (h : EndsBefore stop stops) (hs : s.Ends) :
    ∃ es ts s', declarations stop s = .ok es s' ∧ s.Passed ts s' ∧
      stops s'.cursor.current = true := by
  rw [declarations, bounded_apply]
  exact declarationsUntil_ok h hs (by omega)

theorem declarations_ne_stuck (h : EndsBefore stop stops) (hs : s.Ends) :
    declarations stop s ≠ .stuck := by
  obtain ⟨es, ts, s', hes, -⟩ := declarations_ok h hs
  rw [hes]
  nofun

theorem declarationsUntil_below_declarations (h : EndsBefore stop stops) (n : Nat) :
    Below Ends (declarationsUntil stop declaration n) (declarations stop) :=
  upTo_below_bounded (fun _ _ hmn => declarationsUntil_below h.below declaration_below hmn)
    (fun _ hs => declarations_ne_stuck h hs) n

/-- A loop of declarations is one turn and the loop again. -/
theorem declarations_eq (h : EndsBefore stop stops) (hs : s.Ends) :
    declarations stop s = turn stop (declarations stop) s :=
  bounded_eq hs (declarations_ne_stuck h hs) fun n =>
    .ask h.below (.pure []) (.bind declaration_below fun _ =>
      .bind (declarationsUntil_below_declarations h n) fun _ => .pure _)

/-! ### Whole programs -/

theorem program_eq : program = declarations atEnd := rfl

theorem blockBody_eq : blockBody declaration = (do
    let statements ← declarations atBlockEnd
    let _ ← expect .rightBrace .braceAfterBlock
    return statements) := rfl

/-- A program is read to the end of the source, and no fault gets further than the declaration
that it is found in. -/
theorem program_ok {tokens : List Token} (htokens : EndsOnce tokens) :
    ∃ c statements s, Cursor.ofTokens? tokens = some c ∧ program (.start c) = .ok statements s ∧
      Program.ofTokens tokens = .ofReading statements s ∧ s.cursor.isAtEnd = true ∧
        s.depth = 0 := by
  cases tokens with
  | nil =>
    obtain ⟨before, last, heq, -⟩ := htokens
    simp at heq
  | cons t ts =>
    have hs : (Reading.start ⟨none, t, ts, 0⟩).Ends := htokens
    obtain ⟨statements, us, s, hread, hpassed, hend⟩ := declarations_ok endsBefore_end hs
    rw [← program_eq] at hread
    refine ⟨⟨none, t, ts, 0⟩, statements, s, rfl, hread, ?_, hend, hpassed.depth⟩
    rw [Program.ofTokens, Cursor.ofTokens?]
    simp only [hread]

/-- Of tokens that end as those of a source text do, reading comes to its end and lets no fault
escape:

* a program is read up to the end of the source, outside every function;
* wherever reading may be, the readers are made of themselves without any bound, and so are the
  loops of declarations in a program and in a block;
* a declaration is found or dropped; unless the source has ended, a token is passed either way;
* wherever it is asked after a fault which token came before, there is one;
* a move never finds that there are no more tokens. -/
theorem reading_ends_cleanly {tokens : List Token} (htokens : EndsOnce tokens) :
    (∃ c statements s, Cursor.ofTokens? tokens = some c ∧ program (.start c) = .ok statements s ∧
      Program.ofTokens tokens = .ofReading statements s ∧ s.cursor.isAtEnd = true ∧
        s.depth = 0) ∧
    (blockBody declaration = do
      let statements ← declarations atBlockEnd
      let _ ← expect .rightBrace .braceAfterBlock
      return statements) ∧
    ∀ s : Reading, s.rest <:+ tokens →
      (expression s = assignment expression unary s ∧
        unary s = prefixed expression unary s ∧
        statement s = statementStep declaration statement s ∧
        declaration s = recovering (declarationStep declaration statement) s ∧
        declarations atBlockEnd s = turn atBlockEnd (declarations atBlockEnd) s ∧
        program s = turn atEnd program s) ∧
      (∃ found ts s', declaration s = .ok found s' ∧ s.Passed ts s' ∧
        (s.cursor.isAtEnd = false → ts ≠ [])) ∧
      (∃ k, resume s = .ok () (s.skip (k + 1)) ∧ ∀ i ≤ k,
        (s.skip (i + 1)).cursor.isAtEnd = true ∨
          (s.skip (i + 1)).cursor.previous = some (s.skip i).cursor.current) ∧
      s.cursor.passed? = some s.cursor.current := by
  refine ⟨program_ok htokens, blockBody_eq, fun s hsuffix => ?_⟩
  have hs : s.Ends := by
    obtain ⟨before, rfl⟩ := hsuffix
    exact (htokens.of_append s.rest_ne_nil).1
  exact ⟨⟨expression_eq hs, unary_eq hs, statement_eq hs, declaration_eq hs,
    declarations_eq endsBefore_blockEnd hs, declarations_eq endsBefore_end hs⟩, declaration_ok hs,
    resume_previous hs, hs.passed?⟩

/-- A word that no statement begins with and before which reading goes on after a fault, and
then the end of the source. -/
theorem reading_ends_cleanly_of_class :
    ∃ c statements s,
      Cursor.ofTokens? [⟨.classWord, "class", 1, 1, .null, true⟩, ⟨.endOfFile, "", 1, 6, .null, true⟩]
        = some c ∧
      program (.start c) = .ok statements s ∧ s.cursor.isAtEnd = true ∧ s.depth = 0 := by
  have htokens : EndsOnce
      [⟨.classWord, "class", 1, 1, .null, true⟩, ⟨.endOfFile, "", 1, 6, .null, true⟩] :=
    ⟨[⟨.classWord, "class", 1, 1, .null, true⟩], ⟨.endOfFile, "", 1, 6, .null, true⟩, rfl, rfl,
      by simp⟩
  obtain ⟨c, statements, s, hc, hread, -, hend, hdepth⟩ := (reading_ends_cleanly htokens).1
  exact ⟨c, statements, s, hc, hread, hend, hdepth⟩

end Reader

end LoxLang
