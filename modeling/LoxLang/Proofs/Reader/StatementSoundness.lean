/-
What is read as a program is one.

Every reader of statements is honest (`Reply.Honest`), given that the readers it is made of
are:

* `variableFrom_honest`, `function_honest` — declarations;
* `ifFrom_honest`, `whileFrom_honest`, `forFrom_honest`, ... — statements;
* `recovering_honest` — a declaration with a fault is dropped, but only after an error;
* `program_honest` — whole programs.

What is read in front of a token other than `else` may be an `if` without one.  So the readers
of statements say which token comes next.
-/
import LoxLang.Proofs.Reader.ExpressionSoundness

namespace LoxLang.Reader

open Grammar

variable {k : Nat} {s : Reading}

/-! ### Parts of statements -/

theorem parameter_reads : parameter.Reads k 1 fun _ m ts _ =>
    ∃ name : Token, name.kind = .identifier ∧ ts = [name] ∧ m = name.mark := by
  intro s hs _
  refine .expect hs (by decide) (l := 0) (fun hname _ _ => ?_) (by omega)
  exact .pure ⟨_, hname, rfl, rfl⟩

theorem parameters_honest (hs : EndsOnce s.rest) :
    (listing parameter .tooManyParameters s).Honest s 0 fun params ts _ =>
      OptionalParameters ts params ∧ params.length ≤ maxArguments := by
  have h : (listing parameter .tooManyParameters s).Honest s 0 _ :=
    listing_honest (fun params ts => Parameters ts params) parameter_reads ?_ ?_ hs (Nat.le_refl _)
  · refine h.mono (Nat.le_refl _) fun params ts _ hparams => ?_
    obtain ⟨rfl, rfl⟩ | ⟨hparams, hcount⟩ := hparams
    · exact ⟨.absent, Nat.zero_le _⟩
    · exact ⟨.present hparams, hcount⟩
  · rintro _ _ ⟨name, hname, rfl, rfl⟩
    exact .last hname
  · rintro _ _ comma params us ⟨name, hname, rfl, rfl⟩ hcomma hparams
    exact .more hname hcomma hparams

theorem optionalBefore_honest (kind : Kind) (hs : EndsOnce s.rest) :
    (optionalBefore kind s).Honest s 0 fun e ts _ => Optional ts e := by
  rw [optionalBefore, check_bind]
  split
  · exact .pure .absent
  · exact (expression_honest hs).mono (by omega) fun _ _ _ he => .present he

/-- Something that is announced by a token of a given kind, if it is there. -/
theorem orMissing_honest {kind : Kind} {p : Reader Node} (right : Node → List Token → Token → Prop)
    (hs : EndsOnce s.rest) (hkind : kind ≠ .endOfFile)
    (hp : s.cursor.current.kind = kind → EndsOnce (s.skip 1).rest →
      s.rest.length = (s.skip 1).rest.length + 1 → (p (s.skip 1)).Honest (s.skip 1) 0 right) :
    (orMissing kind p s).Honest s 0 fun e ts next =>
      (e = .missing ∧ ts = [] ∧ next.kind ≠ kind) ∨
        ∃ us : List Token, s.cursor.current.kind = kind ∧ ts = s.cursor.current :: us ∧
          right e us next := by
  rw [orMissing_apply]
  split
  · rename_i hcurrent
    refine .skip hs (hcurrent ▸ hkind) (l := 0) (fun hs₁ hlength₁ => ?_) (by omega)
    refine (hp hcurrent hs₁ hlength₁).mono (Nat.le_refl _) fun _ us _ he => ?_
    exact .inr ⟨us, hcurrent, rfl, he⟩
  · rename_i hcurrent
    exact .pure (.inl ⟨rfl, rfl, hcurrent⟩)

theorem parenthesized_honest (before after : SyntaxFault) (hs : EndsOnce s.rest) :
    (parenthesized before after s).Honest s 1 fun e ts _ =>
      ∃ (leftParen : Token) (us : List Token) (rightParen : Token),
        leftParen.kind = .leftParen ∧ Expression .expression us e ∧
          rightParen.kind = .rightParen ∧ ts = leftParen :: us ++ [rightParen] := by
  refine .expect hs (by decide) (l := 1) (fun hleft hs₁ _ => ?_) (by omega)
  refine .bind hs₁ (expression_honest hs₁) ?_ (j := 1) (by omega)
  intro e us s₂ hs₂ _ _ _
  refine .expect hs₂ (by decide) (l := 0) (fun hright _ _ => ?_) (by omega)
  exact .pure fun he => ⟨_, us, _, hleft, he, hright, rfl⟩

theorem variableFrom_honest (hs : EndsOnce s.rest) :
    (variableFrom s).Honest s 1 fun e ts _ => Variable ts e := by
  rw [variableFrom_eq]
  refine .expect hs (by decide) (l := 1) (fun hname hs₁ _ => ?_) (by omega)
  refine .bind hs₁ (orMissing_honest _ hs₁ (by decide) fun _ hs₂ _ =>
    (expression_honest hs₂).mono (by omega) fun _ _ _ he => he) ?_ (j := 1) (by omega)
  intro e us s₂ hs₂ _ _ _
  refine .expect hs₂ (by decide) (l := 0) (fun hsemicolon _ _ => ?_) (by omega)
  refine .pure fun he => ?_
  obtain ⟨rfl, rfl, -⟩ | ⟨us, hequal, rfl, he⟩ := he
  · exact .bare hname hsemicolon
  · exact .initialized hname hequal he hsemicolon

theorem expressionStatement_honest (hs : EndsOnce s.rest) :
    (expressionStatement s).Honest s 1 fun e ts _ =>
      ∃ (us : List Token) (semicolon : Token) (f : Node), Expression .expression us f ∧
        semicolon.kind = .semicolon ∧ ts = us ++ [semicolon] ∧ e = .evaluate f := by
  refine .bind hs (expression_honest hs) ?_ (j := 1) (by omega)
  intro f us s₁ hs₁ _ _ _
  refine .expect hs₁ (by decide) (l := 0) (fun hsemicolon _ _ => ?_) (by omega)
  exact .pure fun hf => ⟨us, _, f, hf, hsemicolon, rfl, rfl⟩

theorem forInitializer_honest (hs : EndsOnce s.rest) :
    (forInitializer s).Honest s 0 fun e ts _ => Initializer ts e := by
  rw [forInitializer, accept_bind]
  split
  · rename_i hsemicolon
    refine .skip hs (by rw [hsemicolon]; decide) (l := 0) (fun _ _ => ?_) (by omega)
    exact .pure (.absent hsemicolon)
  · rw [if_neg Bool.false_ne_true, accept_bind]
    split
    · rename_i hword
      refine .skip hs (by rw [hword]; decide) (l := 1) (fun hs₁ _ => ?_) (by omega)
      exact (variableFrom_honest hs₁).mono (Nat.le_refl _) fun _ _ _ he => .declare hword he
    · refine (expressionStatement_honest hs).mono (by omega) fun _ _ _ he => ?_
      obtain ⟨us, semicolon, f, hf, hsemicolon, rfl, rfl⟩ := he
      exact .expression hf hsemicolon

/-! ### Statements -/

/-- What is read is a statement, and an `else` that comes next does not belong to it. -/
def Closed (d : Nat) (e : Node) (ts : List Token) (next : Token) : Prop :=
  ∃ ajar, Statement d (.statement ajar) ts e ∧ (ajar = true → next.kind ≠ .elseWord)

theorem Closed.of_false {d : Nat} {e : Node} {ts : List Token} {next : Token}
    (h : Statement d (.statement false) ts e) : Closed d e ts next :=
  ⟨false, h, fun h => absurd h Bool.false_ne_true⟩

theorem printFrom_honest {word : Token} (hword : word.kind = .printWord) (hs : EndsOnce s.rest)
    (d : Nat) : (printFrom s).Honest s 0 fun e ts next => Closed d e (word :: ts) next := by
  refine .bind hs (expression_honest hs) ?_ (j := 1) (by omega)
  intro f us s₁ hs₁ _ _ _
  refine .expect hs₁ (by decide) (l := 0) (fun hsemicolon _ _ => ?_) (by omega)
  exact .pure fun hf => .of_false (.print hword hf hsemicolon)

/-- What is read by a reader of statements. -/
def ReadsStatement (k : Nat) (statement : Reader Node) : Prop :=
  statement.Reads k 1 Closed

variable {statement : Reader Node} {word : Token}

theorem ifFrom_honest (hstatement : statement.ReadsStatement k) (hword : word.kind = .ifWord)
    (hs : EndsOnce s.rest) (hk : s.rest.length ≤ k) :
    (ifFrom statement s).Honest s 0 fun e ts next => Closed s.depth e (word :: ts) next := by
  rw [ifFrom_eq]
  refine .bind hs (parenthesized_honest _ _ hs) ?_ (j := 0) (by omega)
  intro condition ts s₁ hs₁ hlength₁ hdepth₁ _
  refine .bind hs₁ (hstatement s₁ hs₁ (by omega)) ?_ (j := 0) (by omega)
  intro thenBranch us s₂ hs₂ hlength₂ hdepth₂ _
  refine .bind hs₂ (orMissing_honest (Closed s.depth) hs₂ (by decide)
    fun _ hs₃ hlength₃ => ?_) ?_ (j := 0) (by omega)
  · have h := hstatement _ hs₃ (by omega)
    rw [Reading.skip_depth, hdepth₂, hdepth₁] at h
    exact h.mono (by omega) fun _ _ _ he => he
  · intro elseBranch vs s₃ _ _ _ _
    refine .pure fun helse hthen hcondition => ?_
    obtain ⟨leftParen, ts, rightParen, hleft, hcondition, hright, rfl⟩ := hcondition
    rw [hdepth₁] at hthen
    obtain ⟨ajar, hthen, hajar⟩ := hthen
    obtain ⟨rfl, rfl, hnext⟩ | ⟨vs, helseWord, rfl, ajar', helse, hajar'⟩ := helse
    -- Without an `else` the statement is ajar, and indeed none comes next.
    · refine ⟨true, ?_, fun _ => hnext⟩
      simpa using Statement.ifThen hword hleft hcondition hright hthen
    · -- The first branch is followed by an `else`, so it is not ajar.
      obtain rfl : ajar = false := by
        cases ajar with
        | false => rfl
        | true => exact absurd helseWord (hajar rfl)
      refine ⟨ajar', ?_, hajar'⟩
      simpa using Statement.ifElse hword hleft hcondition hright hthen helseWord helse

theorem whileFrom_honest (hstatement : statement.ReadsStatement k) (hword : word.kind = .whileWord)
    (hs : EndsOnce s.rest) (hk : s.rest.length ≤ k) :
    (whileFrom statement s).Honest s 0 fun e ts next => Closed s.depth e (word :: ts) next := by
  rw [whileFrom_eq]
  refine .bind hs (parenthesized_honest _ _ hs) ?_ (j := 0) (by omega)
  intro condition ts s₁ hs₁ hlength₁ hdepth₁ _
  refine .bind hs₁ (hstatement s₁ hs₁ (by omega)) ?_ (j := 0) (by omega)
  intro body us s₂ _ _ _ _
  refine .pure fun hbody hcondition => ?_
  obtain ⟨leftParen, ts, rightParen, hleft, hcondition, hright, rfl⟩ := hcondition
  rw [hdepth₁] at hbody
  obtain ⟨ajar, hbody, hajar⟩ := hbody
  refine ⟨ajar, ?_, hajar⟩
  simpa using Statement.whileLoop hword hleft hcondition hright hbody

/-- The blocks and the loop that a `for` stands for. -/
theorem forLoop_eq (initializer condition increment body : Node) :
    forLoop initializer condition increment body
      = afterInitializer (.loop (orTrue condition) (thenIncrement body increment)) initializer := by
  have hincrement : (if increment.isMissing then body else .block [body, .evaluate increment])
      = thenIncrement body increment := by cases increment <;> rfl
  have hcondition : (if condition.isMissing then .literal (.bool true) else condition)
      = orTrue condition := by cases condition <;> rfl
  rw [forLoop, hincrement, hcondition]
  cases initializer <;> rfl

/-- What stands in front of the body of a `for`: an initializer, a condition and an increment, in
parentheses. -/
inductive Clauses : List Token → Node × Node × Node → Prop where
  | intro {leftParen semicolon rightParen : Token} {ts us vs : List Token} {e f g : Node}
      (hleft : leftParen.kind = .leftParen) (initializer : Initializer ts e)
      (condition : Optional us f) (hsemicolon : semicolon.kind = .semicolon)
      (increment : Optional vs g) (hright : rightParen.kind = .rightParen) :
      Clauses (leftParen :: ts ++ us ++ semicolon :: vs ++ [rightParen]) (e, f, g)

theorem forClauses_honest (hs : EndsOnce s.rest) :
    (forClauses s).Honest s 0 fun clauses ts _ => Clauses ts clauses := by
  refine .expect hs (by decide) (l := 0) (fun hleft hs₁ _ => ?_) (by omega)
  refine .bind hs₁ (forInitializer_honest hs₁) ?_ (j := 0) (by omega)
  intro initializer ts s₂ hs₂ _ _ _
  refine .bind hs₂ (optionalBefore_honest _ hs₂) ?_ (j := 0) (by omega)
  intro condition us s₃ hs₃ _ _ _
  refine .expect hs₃ (by decide) (l := 0) (fun hsemicolon hs₄ _ => ?_) (by omega)
  refine .bind hs₄ (optionalBefore_honest _ hs₄) ?_ (j := 0) (by omega)
  intro increment vs s₅ hs₅ _ _ _
  refine .expect hs₅ (by decide) (l := 0) (fun hright _ _ => ?_) (by omega)
  refine .pure fun hincrement hcondition hinitializer => ?_
  simpa using Clauses.intro hleft hinitializer hcondition hsemicolon hincrement hright

theorem forFrom_honest (hstatement : statement.ReadsStatement k) (hword : word.kind = .forWord)
    (hs : EndsOnce s.rest) (hk : s.rest.length ≤ k) :
    (forFrom statement s).Honest s 0 fun e ts next => Closed s.depth e (word :: ts) next := by
  rw [forFrom_eq]
  refine .bind hs (forClauses_honest hs) ?_ (j := 0) (by omega)
  intro clauses ts s₁ hs₁ hlength₁ hdepth₁ _
  refine .bind hs₁ (hstatement s₁ hs₁ (by omega)) ?_ (j := 0) (by omega)
  intro body us s₂ _ _ _ _
  refine .pure fun hbody hclauses => ?_
  rw [hdepth₁] at hbody
  obtain ⟨ajar, hbody, hajar⟩ := hbody
  refine ⟨ajar, ?_, hajar⟩
  cases hclauses with
  | intro hleft hinitializer hcondition hsemicolon hincrement hright =>
    rw [forLoop_eq]
    simpa using Statement.forLoop hword hleft hinitializer hcondition hsemicolon hincrement hright
      hbody

/-- The rest of a return statement, from its value on. -/
def returnFrom (keyword : Token) : Reader Node := do
  let value ← optionalBefore .semicolon
  let _ ← expect .semicolon .semicolonAfterReturned
  return .giveBack keyword.mark value

theorem returnFrom_honest (keyword : Token) (hs : EndsOnce s.rest) :
    (returnFrom keyword s).Honest s 0 fun e ts _ =>
      ∃ (us : List Token) (semicolon : Token) (f : Node), Optional us f ∧
        semicolon.kind = .semicolon ∧ ts = us ++ [semicolon] ∧ e = .giveBack keyword.mark f := by
  refine .bind hs (optionalBefore_honest _ hs) ?_ (j := 0) (by omega)
  intro f us s₁ hs₁ _ _ _
  refine .expect hs₁ (by decide) (l := 0) (fun hsemicolon _ _ => ?_) (by omega)
  exact .pure fun hf => ⟨us, _, f, hf, hsemicolon, rfl, rfl⟩

theorem returnStatement_apply : returnStatement s =
    if s.depth = 0 then
      returnFrom s.cursor.current (recorded (s.skip 1) ⟨s.cursor.current, s.cursor.index,
        .topLevelReturn⟩)
    else returnFrom s.cursor.current (s.skip 1) := by
  have hdemand : returnStatement s
      = (demandFunction s.cursor.current s.cursor.index >>= fun _ =>
          returnFrom s.cursor.current) (s.skip 1) := rfl
  rw [hdemand]
  split
  · rename_i hdepth
    exact bind_of_ok (a := ()) (if_pos hdepth)
  · rename_i hdepth
    exact bind_of_ok (if_neg hdepth)

theorem returnStatement_honest (hs : EndsOnce s.rest)
    (hcurrent : s.cursor.current.kind = .returnWord) :
    (returnStatement s).Honest s 1 (Closed s.depth) := by
  refine .skip hs (by rw [hcurrent]; decide) (l := 0) (fun hs₁ _ => ?_) (by omega)
  rw [returnStatement_apply]
  split
  -- Outside every function the keyword is reported, though the statement is read on.
  · have hs₂ : EndsOnce (recorded (s.skip 1) ⟨s.cursor.current, s.cursor.index,
      .topLevelReturn⟩).rest := hs₁
    exact .recorded _ ((returnFrom_honest _ hs₂).mono (Nat.le_refl _) fun _ _ _ _ => trivial)
  · rename_i hdepth
    refine (returnFrom_honest _ hs₁).mono (Nat.le_refl _) fun _ _ _ he => ?_
    obtain ⟨us, semicolon, f, hf, hsemicolon, rfl, rfl⟩ := he
    exact .of_false (.giveBack hcurrent hf hsemicolon hdepth)

/-! ### Going on after a fault -/

theorem skipToBoundary_honest {n : Nat} (hs : EndsOnce s.rest) (hn : s.rest.length ≤ n) :
    (skipToBoundary n s).Honest s 0 fun _ _ _ => True := by
  induction n generalizing s with
  | zero =>
    rw [Reading.length_rest] at hn
    omega
  | succ n ih =>
    rw [skipToBoundary]
    beta_reduce
    split
    · exact ⟨[], .refl s, Nat.le_refl _, fun _ => trivial⟩
    · rename_i hstop
      have hcurrent : s.cursor.current.kind ≠ .endOfFile := by
        intro heq
        simp [Cursor.isAtEnd, heq] at hstop
      exact .skip hs hcurrent (l := 0) (fun hs₁ _ => ih hs₁ (by omega)) (by omega)

/-- Going on passes at least one token, if there is one. -/
theorem resume_honest (hs : EndsOnce s.rest) :
    (resume s).Honest s (if s.cursor.current.kind = .endOfFile then 0 else 1)
      fun _ _ _ => True := by
  rw [resume, advance_bind, bounded_apply]
  split
  · rename_i hcurrent
    rw [Reading.skip_one_of_end hcurrent]
    exact skipToBoundary_honest hs (by omega)
  · rename_i hcurrent
    refine .skip hs hcurrent (l := 0) (fun hs₁ _ => ?_) (by omega)
    exact skipToBoundary_honest hs₁ (by omega)

/-- What is dropped has a fault. -/
theorem recovering_honest {p : Reader Node} {right : Node → List Token → Token → Prop}
    (hs : EndsOnce s.rest) (hcurrent : s.cursor.current.kind ≠ .endOfFile)
    (hp : (p s).Honest s 1 right) :
    (recovering p s).Honest s 1 fun found ts next => ∃ e, found = some e ∧ right e ts next := by
  rw [recovering]
  cases hps : p s with
  | ok e s₁ =>
    rw [hps] at hp
    obtain ⟨ts, hts, hleast, he⟩ := hp
    exact ⟨ts, hts, hleast, fun heq => ⟨e, rfl, he heq⟩⟩
  | failed s₁ =>
    rw [hps] at hp
    obtain ⟨⟨ts, hts⟩, hne⟩ := hp
    have hresume := resume_honest (hts.endsOnce hs)
    dsimp only
    -- The error of the failure stays recorded, whatever is passed while going on.
    cases hrs : resume s₁ with
    | ok _ s₂ =>
      rw [hrs] at hresume
      obtain ⟨us, hus, hleast, -⟩ := hresume
      refine ⟨ts ++ us, hts.trans hus, ?_, fun heq => absurd (hts.errors_eq hus heq).1 hne⟩
      rw [List.length_append]
      -- Either something was passed before the fault, or the token with the fault is passed.
      cases ts with
      | cons t ts =>
        rw [List.length_cons]
        omega
      | nil =>
        have hsame : s₁.cursor.current = s.cursor.current := by
          have hrest := hts.rest
          rw [List.nil_append, Reading.rest, Reading.rest] at hrest
          injection hrest with hrest
          exact hrest.symm
        rw [if_neg (by rw [hsame]; exact hcurrent)] at hleast
        simpa using hleast
    | failed s₂ =>
      rw [hrs] at hresume
      obtain ⟨⟨us, hus⟩, -⟩ := hresume
      exact ⟨⟨ts ++ us, hts.trans hus⟩, fun heq => hne (hts.errors_eq hus heq).1⟩
    | stuck =>
      rw [hrs] at hresume
      exact hresume
  | stuck =>
    rw [hps] at hp
    exact hp

/-! ### Declarations -/

/-- What is read by a reader of declarations where the source has not ended. -/
def ReadsDeclaration (k : Nat) (declaration : Reader (Option Node)) : Prop :=
  ∀ s, EndsOnce s.rest → s.cursor.current.kind ≠ .endOfFile → s.rest.length ≤ k →
    (declaration s).Honest s 1 fun found ts _ =>
      ∃ e, found = some e ∧ Statement s.depth .declaration ts e

variable {declaration : Reader (Option Node)}

/-- Declarations up to a token of certain kinds, among which is the one that ends the source. -/
theorem declarationsUntil_honest (stop : Reader Bool) (stops : Token → Bool)
    (hstop : ∀ s, stop s = .ok (stops s.cursor.current) s)
    (hend : ∀ t : Token, t.kind = .endOfFile → stops t = true)
    (hdeclaration : declaration.ReadsDeclaration k) {n : Nat} (hs : EndsOnce s.rest)
    (hk : s.rest.length ≤ k) (hn : s.rest.length ≤ n) :
    (declarationsUntil stop declaration n s).Honest s 0 fun es ts next =>
      Statement s.depth .declarations ts (.many es) ∧ stops next = true := by
  induction n generalizing s with
  | zero =>
    rw [Reading.length_rest] at hn
    omega
  | succ n ih =>
    rw [declarationsUntil, bind_of_ok (hstop s)]
    split
    · rename_i hstops
      exact .pure ⟨.noDeclaration, hstops⟩
    · rename_i hstops
      have hcurrent : s.cursor.current.kind ≠ .endOfFile := fun heq => hstops (hend _ heq)
      refine .bind hs (hdeclaration s hs hcurrent hk) ?_ (j := 0) (by omega)
      intro first ts s₁ hs₁ hlength₁ hdepth₁ _
      refine .bind hs₁ (ih hs₁ (by omega) (by omega)) ?_ (j := 0) (by omega)
      intro es us s₂ _ _ _ _
      refine .pure fun hes hfirst => ?_
      obtain ⟨e, rfl, he⟩ := hfirst
      rw [hdepth₁] at hes
      rw [List.append_nil]
      exact ⟨.moreDeclarations he hes.1, hes.2⟩

theorem blockBody_honest (hdeclaration : declaration.ReadsDeclaration k) (hs : EndsOnce s.rest)
    (hk : s.rest.length ≤ k) :
    (blockBody declaration s).Honest s 1 fun es ts _ =>
      ∃ (us : List Token) (rightBrace : Token), Statement s.depth .declarations us (.many es) ∧
        rightBrace.kind = .rightBrace ∧ ts = us ++ [rightBrace] := by
  have hdeclarations : (bounded (declarationsUntil atBlockEnd declaration) s).Honest s 0
      fun es ts _ => Statement s.depth .declarations ts (.many es) := by
    rw [bounded_apply]
    have h := declarationsUntil_honest atBlockEnd
      (fun t => [Kind.rightBrace].contains t.kind || t.kind == .endOfFile)
      (fun _ => rfl) (fun t ht => by simp [ht]) hdeclaration hs hk
      (n := 2 * s.rest.length) (by omega)
    exact h.mono (Nat.le_refl _) fun _ _ _ hes => hes.1
  refine .bind hs hdeclarations ?_ (j := 1) (by omega)
  intro es us s₁ hs₁ _ _ _
  refine .expect hs₁ (by decide) (l := 0) (fun hclose _ _ => ?_) (by omega)
  exact .pure fun hes => ⟨us, _, hes, hclose, rfl⟩

theorem inFunction_honest {α : Type} {p : Reader α} {l : Nat}
    (right : Nat → α → List Token → Token → Prop)
    (hp : (p { s with depth := s.depth + 1 }).Honest { s with depth := s.depth + 1 } l
      (right (s.depth + 1))) :
    (inFunction p s).Honest s l (right (s.depth + 1)) := by
  rw [inFunction]
  cases hps : p { s with depth := s.depth + 1 } with
  | ok a s' =>
    rw [hps] at hp
    obtain ⟨ts, hts, hleast, ha⟩ := hp
    -- The body leaves the depth as it was inside, one more than outside.
    have hdepth : s'.depth - 1 = s.depth := by
      rw [hts.depth]
      rfl
    exact ⟨ts, ⟨hts.rest, hts.errors, hdepth⟩, hleast, ha⟩
  | failed s' =>
    rw [hps] at hp
    obtain ⟨⟨ts, hts⟩, hne⟩ := hp
    have hdepth : s'.depth - 1 = s.depth := by
      rw [hts.depth]
      rfl
    exact ⟨⟨ts, ⟨hts.rest, hts.errors, hdepth⟩⟩, hne⟩
  | stuck =>
    rw [hps] at hp
    exact hp

theorem function_honest (hdeclaration : declaration.ReadsDeclaration k)
    (hword : word.kind = .funWord) (hs : EndsOnce s.rest) (hk : s.rest.length ≤ k) :
    (function declaration s).Honest s 0 fun e ts _ =>
      Statement s.depth .declaration (word :: ts) e := by
  refine .expect hs (by decide) (l := 0) (fun hname hs₁ _ => ?_) (by omega)
  refine .expect hs₁ (by decide) (l := 0) (fun hleft hs₂ _ => ?_) (by omega)
  refine .bind hs₂ (parameters_honest hs₂) ?_ (j := 0) (by omega)
  intro params ts s₃ hs₃ hlength₃ hdepth₃ _
  refine .expect hs₃ (by decide) (l := 0) (fun hright hs₄ _ => ?_) (by omega)
  refine .expect hs₄ (by decide) (l := 0) (fun hopen hs₅ _ => ?_) (by omega)
  refine .bind hs₅ (inFunction_honest (fun d es ts _ =>
    ∃ (us : List Token) (rightBrace : Token), Statement d .declarations us (.many es) ∧
      rightBrace.kind = .rightBrace ∧ ts = us ++ [rightBrace])
    (blockBody_honest hdeclaration hs₅ (show ((s₃.skip 1).skip 1).rest.length ≤ k by omega))) ?_
    (j := 0) (by omega)
  intro body us s₆ _ _ _ _
  refine .pure fun hbody hparams => ?_
  obtain ⟨us, rightBrace, hbody, hclose, rfl⟩ := hbody
  rw [Reading.skip_depth, Reading.skip_depth, hdepth₃, Reading.skip_depth,
    Reading.skip_depth] at hbody
  simpa using Statement.function hword hname hleft hparams.1 hparams.2 hright hopen hbody hclose

/-! ### Levels of statements -/

theorem statementStep_reads (hdeclaration : declaration.ReadsDeclaration k)
    (hstatement : statement.ReadsStatement k) :
    (statementStep declaration statement).ReadsStatement (k + 1) := by
  intro s hs hk
  have hexpression : (expressionStatement s).Honest s 1 (Closed s.depth) := by
    refine (expressionStatement_honest hs).mono (Nat.le_refl _) fun _ _ _ he => ?_
    obtain ⟨us, semicolon, f, hf, hsemicolon, rfl, rfl⟩ := he
    exact .of_false (.expression hf hsemicolon)
  rw [statementStep, peek_bind]
  cases hkind : s.cursor.current.kind
  case printWord =>
    refine .skip hs (by rw [hkind]; decide) (l := 0) (fun hs₁ _ => ?_) (by omega)
    exact printFrom_honest hkind hs₁ _
  case ifWord =>
    refine .skip hs (by rw [hkind]; decide) (l := 0) (fun hs₁ _ => ?_) (by omega)
    exact ifFrom_honest hstatement hkind hs₁ (by omega)
  case whileWord =>
    refine .skip hs (by rw [hkind]; decide) (l := 0) (fun hs₁ _ => ?_) (by omega)
    exact whileFrom_honest hstatement hkind hs₁ (by omega)
  case forWord =>
    refine .skip hs (by rw [hkind]; decide) (l := 0) (fun hs₁ _ => ?_) (by omega)
    exact forFrom_honest hstatement hkind hs₁ (by omega)
  case returnWord => exact returnStatement_honest hs hkind
  case leftBrace =>
    refine .skip hs (by rw [hkind]; decide) (l := 1) (fun hs₁ _ => ?_) (by omega)
    refine .bind hs₁ (blockBody_honest hdeclaration hs₁ (by omega)) ?_ (j := 0) (by omega)
    intro es ts s₂ _ _ _ _
    refine .pure fun hes => ?_
    obtain ⟨us, rightBrace, hes, hclose, rfl⟩ := hes
    rw [List.append_nil]
    exact .of_false (.block hkind hes hclose)
  all_goals exact hexpression

theorem declarationStep_honest (hdeclaration : declaration.ReadsDeclaration k)
    (hstatement : statement.ReadsStatement (k + 1)) (hs : EndsOnce s.rest)
    (hk : s.rest.length ≤ k + 1) :
    (declarationStep declaration statement s).Honest s 1 fun e ts _ =>
      Statement s.depth .declaration ts e := by
  rw [declarationStep, accept_bind]
  split
  · rename_i hword
    refine .skip hs (by rw [hword]; decide) (l := 0) (fun hs₁ _ => ?_) (by omega)
    exact function_honest hdeclaration hword hs₁ (by omega)
  · rw [if_neg Bool.false_ne_true, accept_bind]
    split
    · rename_i hword
      refine .skip hs (by rw [hword]; decide) (l := 0) (fun hs₁ _ => ?_) (by omega)
      exact (variableFrom_honest hs₁).mono (by omega) fun _ _ _ he => .declare hword he
    · refine (hstatement s hs hk).mono (Nat.le_refl _) fun _ _ _ he => ?_
      obtain ⟨ajar, he, -⟩ := he
      exact .statement he

/-- Declarations and statements, with enough levels for the tokens that are left. -/
theorem statements_upTo_reads (n : Nat) :
    (∀ k, 2 * k ≤ n → ReadsDeclaration k (declarationUpTo n)) ∧
      ∀ k, 2 * k ≤ n + 1 → ReadsStatement k (statementUpTo n) := by
  induction n with
  | zero =>
    constructor
    · intro k hk s hs _ hlength
      rw [Reading.length_rest] at hlength
      omega
    · intro k hk
      obtain rfl : k = 0 := by omega
      exact Reads.zero
  | succ n ih =>
    constructor
    · intro k hk s hs hcurrent hlength
      cases k with
      | zero =>
        rw [Reading.length_rest] at hlength
        omega
      | succ k =>
        exact recovering_honest hs hcurrent (declarationStep_honest (ih.1 k (by omega))
          (ih.2 (k + 1) (by omega)) hs hlength)
    · intro k hk
      cases k with
      | zero => exact Reads.zero
      | succ k => exact statementStep_reads (ih.1 k (by omega)) (ih.2 k (by omega))

/-- What is read as a program is one, up to the token that ends the source. -/
theorem program_honest (hs : EndsOnce s.rest) :
    (program s).Honest s 0 fun es ts next =>
      Statement s.depth .declarations ts (.many es) ∧ next.kind = .endOfFile := by
  have hdeclaration : declaration.ReadsDeclaration s.rest.length := by
    intro s' hs' hcurrent hlength
    rw [declaration_apply]
    exact (statements_upTo_reads _).1 _ (Nat.le_refl _) s' hs' hcurrent (Nat.le_refl _)
  have h := declarationsUntil_honest atEnd (fun t => t.kind == .endOfFile)
    (fun _ => rfl) (fun t ht => by simp [ht]) hdeclaration hs (Nat.le_refl _)
    (n := 2 * s.rest.length) (by omega)
  rw [program, bounded_apply]
  exact h.mono (Nat.le_refl _) fun _ _ _ hes => ⟨hes.1, by simpa using hes.2⟩

end LoxLang.Reader
