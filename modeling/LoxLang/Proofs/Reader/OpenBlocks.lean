/-
No token is blamed twice.

The end of the source is the one token that is never passed.  It is blamed once by the statement
that it breaks off and once by every block that has not been closed in front of it.

* `Reader.Nested` — a block is open where reading has come to its statements from those of the
  program.
* `Reader.statement_counts`, `Reader.declaration_counts`, `Reader.declarations_counts` — how often
  the end of the source is blamed at most, each from those that are read later on.
* `Reader.nested_le_endBlamed` — how often it is blamed at least.
* `no_token_blamed_twice` — whole programs.
-/
import LoxLang.Proofs.Reader.Blaming
import LoxLang.Proofs.Reader.Containment

namespace LoxLang

open Reading Reader

namespace Reader

variable {α β : Type} {tokens : List Token} {s s' s₁ s₂ : Reading} {n : Nat}

/-! ### Open blocks -/

/-- A statement that begins in the first state comes to a block whose statements begin in the
second one. -/
inductive StatementOpens : Reading → Reading → Prop where
  | block {s : Reading} (hword : s.cursor.current.kind = .leftBrace) :
      StatementOpens s (s.skip 1)
  | thenBranch {s s₁ s' : Reading} {condition : Node} (hword : s.cursor.current.kind = .ifWord)
      (hcondition : parenthesized .parenAfterIf .parenAfterIfCondition (s.skip 1)
        = .ok condition s₁)
      (hopens : StatementOpens s₁ s') : StatementOpens s s'
  | elseBranch {s s₁ s₂ s' : Reading} {condition thenBranch : Node}
      (hword : s.cursor.current.kind = .ifWord)
      (hcondition : parenthesized .parenAfterIf .parenAfterIfCondition (s.skip 1)
        = .ok condition s₁)
      (hthen : statement s₁ = .ok thenBranch s₂) (helse : s₂.cursor.current.kind = .elseWord)
      (hopens : StatementOpens (s₂.skip 1) s') : StatementOpens s s'
  | whileBody {s s₁ s' : Reading} {condition : Node} (hword : s.cursor.current.kind = .whileWord)
      (hcondition : parenthesized .parenAfterWhile .parenAfterWhileCondition (s.skip 1)
        = .ok condition s₁)
      (hopens : StatementOpens s₁ s') : StatementOpens s s'
  | forBody {s s₁ s' : Reading} {clauses : Node × Node × Node}
      (hword : s.cursor.current.kind = .forWord) (hclauses : forClauses (s.skip 1) = .ok clauses s₁)
      (hopens : StatementOpens s₁ s') : StatementOpens s s'

/-- A declaration that begins in the first state comes to a block whose statements begin in the
second one. -/
inductive DeclarationOpens : Reading → Reading → Prop where
  | function {s s₁ : Reading} {head : Mark × List Mark} (hword : s.cursor.current.kind = .funWord)
      (hhead : functionHead (s.skip 1) = .ok head s₁) :
      DeclarationOpens s { s₁ with depth := s₁.depth + 1 }
  | statement {s s' : Reading} (hfun : s.cursor.current.kind ≠ .funWord)
      (hvar : s.cursor.current.kind ≠ .varWord) (hopens : StatementOpens s s') :
      DeclarationOpens s s'

/-- Reading the declarations that begin in the first state, up to where `stop` says that there are
no more, comes to the second state in front of a declaration or at the end of a block, with so many
blocks open. -/
inductive Nested : Reader Bool → Reading → Nat → Reading → Prop where
  | here {stop : Reader Bool} {s : Reading} : Nested stop s 0 s
  | next {stop : Reader Bool} {s s₁ s' : Reading} {n : Nat} {found : Option Node}
      (hstop : stop s = .ok false s) (hfound : declaration s = .ok found s₁)
      (h : Nested stop s₁ n s') : Nested stop s n s'
  | enter {stop : Reader Bool} {s s₁ s' : Reading} {n : Nat} (hstop : stop s = .ok false s)
      (hopens : DeclarationOpens s s₁) (h : Nested atBlockEnd s₁ n s') : Nested stop s (n + 1) s'

end Reader

/-! ### How often the end of the source is blamed -/

/-- The end of the source is blamed once at most, or else once more at most than there are blocks
open when it is reached: one of the blocks in which the states `opens` are, and those inside. -/
def Reading.EndsWithin (opens : Reading → Prop) (s s' : Reading) : Prop :=
  s'.endBlamed ≤ s.endBlamed + 1 ∨ ∃ s₁ n s₂, opens s₁ ∧ Nested atBlockEnd s₁ n s₂ ∧
    s₂.cursor.isAtEnd = true ∧ s'.endBlamed ≤ s.endBlamed + (n + 1) + 1

/-- What is found is found without blaming the end of the source. -/
inductive Reply.Counts (opens : Reading → Prop) (s : Reading) {α : Type} : Reply α → Prop where
  | ok {a : α} {s' : Reading} (h : s'.endBlamed = s.endBlamed) : Counts opens s (.ok a s')
  | failed {s' : Reading} (h : s.EndsWithin opens s') : Counts opens s (.failed s')
  | stuck : Counts opens s .stuck

namespace Reply.Counts

variable {α β : Type} {tokens : List Token} {opens opens' : Reading → Prop} {s s₁ : Reading}

theorem mono {r : Reply α} (h : r.Counts opens s) (hopens : ∀ s₁, opens s₁ → opens' s₁) :
    r.Counts opens' s := by
  cases h with
  | ok h => exact .ok h
  | stuck => exact .stuck
  | failed h =>
    refine .failed (h.imp_right ?_)
    rintro ⟨s₁, n, s₂, hs₁, hnested⟩
    exact ⟨s₁, n, s₂, hopens s₁ hs₁, hnested⟩

theorem of_eq {r : Reply α} (h : r.Counts opens s₁) (heq : s₁.endBlamed = s.endBlamed) :
    r.Counts opens s := by
  cases h with
  | ok h => exact .ok (h.trans heq)
  | stuck => exact .stuck
  | failed h =>
    rw [EndsWithin, heq] at h
    exact .failed h

theorem bind {p : Reader α} {q : α → Reader β} (hp : (p s).Counts opens s)
    (hq : ∀ a s₁, p s = .ok a s₁ → (q a s₁).Counts opens s₁) :
    ((p >>= q) s).Counts opens s := by
  cases hps : p s with
  | ok a s₁ =>
    rw [bind_of_ok hps]
    rw [hps] at hp
    cases hp with
    | ok heq => exact (hq a s₁ hps).of_eq heq
  | failed s₁ =>
    rw [bind_of_failed hps]
    rw [hps] at hp
    cases hp with
    | failed h => exact .failed h
  | stuck =>
    simp only [Bind.bind, hps]
    exact .stuck

end Reply.Counts

/-- Without blocks there is one error at most for which reading is given up. -/
instance : Reading.Conduct (fun s s' => s'.endBlamed = s.endBlamed)
    (fun s s' => s'.endBlamed ≤ s.endBlamed + 1) where
  refl _ := rfl
  trans h h' := h'.trans h
  after h h' := h'.trans_eq (congrArg (· + 1) h)
  next _ := rfl
  noted s e he := by
    rw [endBlamed, endBlamed, blamed_recorded, he]
    simp
  fault s fault hfault := by
    rw [endBlamed_recorded s _ hfault]
    split
    · exact Nat.le_refl _
    · exact Nat.le_succ _

/-- A reader without blocks. -/
theorem Reader.Keeps.counts {α : Type} {p : Reader α} {opens : Reading → Prop}
    (hp : Keeps (fun s s' => s'.endBlamed = s.endBlamed)
      (fun s s' => s'.endBlamed ≤ s.endBlamed + 1) p) (s : Reading) : (p s).Counts opens s := by
  have h := hp s
  generalize p s = r at h ⊢
  cases h with
  | ok h => exact .ok h
  | failed h => exact .failed (.inl h)
  | stuck => exact .stuck

namespace Reader

variable {α β : Type} {tokens : List Token} {s s' s₁ s₂ : Reading} {n : Nat}

/-- What is known of the statements and declarations that begin at a token from the one with the
index `i` on. -/
structure CountedFrom (tokens : List Token) (i : Nat) : Prop where
  statement : ∀ s : Reading, s.StandsIn tokens → i ≤ s.cursor.index →
    (statement s).Counts (StatementOpens s) s
  declarations : ∀ (stop : Reader Bool) (stops : Token → Bool) (s s' : Reading) (es : List Node),
    EndsBefore stop stops → s.StandsIn tokens → i ≤ s.cursor.index →
    LoxLang.Reader.declarations stop s = .ok es s' →
      (s'.endBlamed = s.endBlamed ∧ Nested stop s 0 s') ∨ ∃ n s₁, Nested stop s n s₁ ∧
        s₁.cursor.isAtEnd = true ∧ s'.endBlamed ≤ s.endBlamed + n + 1

theorem CountedFrom.mono {i j : Nat} (h : CountedFrom tokens i) (hij : i ≤ j) :
    CountedFrom tokens j where
  statement s hs hindex := h.statement s hs (hij.trans hindex)
  declarations stop stops s s' es hstop hs hindex :=
    h.declarations stop stops s s' es hstop hs (hij.trans hindex)

/-- The statements of a block and the brace that closes it. -/
theorem blockBody_counts (htokens : EndsOnce tokens) (h : CountedFrom tokens s.cursor.index)
    (hs : s.StandsIn tokens) : (blockBody declaration s).Counts (· = s) s := by
  have hends := hs.ends htokens
  obtain ⟨es, ts, s', hes, hts, hstops⟩ := declarations_ok endsBefore_blockEnd hends
  have hcount := h.declarations _ _ s s' es endsBefore_blockEnd hs (Nat.le_refl _) hes
  have hrecovery := inOrder_recovery htokens
  have hblames := Keeps.blames (declarations_keeps .atBlockEnd) hes hs
  rw [blockBody_eq, bind_of_ok hes, expect_bind]
  split
  · rename_i hbrace
    -- In front of a brace the source has not ended, so nobody has blamed its end.
    have hend : s'.cursor.isAtEnd ≠ true := by
      rw [Ne, Reading.isAtEnd_iff, hbrace]
      decide
    exact .ok (of_not_not fun hne => hend (hblames.isAtEnd htokens hne))
  · rename_i hbrace
    have hfault : (recorded s' (faultHere s' .braceAfterBlock)).endBlamed ≤ s'.endBlamed + 1 := by
      rw [endBlamed_recorded s' _ rfl]
      split
      · exact Nat.le_refl _
      · exact Nat.le_succ _
    refine .failed ?_
    rcases hcount with ⟨heq, -⟩ | ⟨n, s₁, hnested, hs₁, hle⟩
    · exact .inl (by omega)
    · exact .inr ⟨s, n, s₁, rfl, hnested, hs₁, by omega⟩

theorem statementStep_of_brace (h : s.cursor.current.kind = .leftBrace) :
    statementStep declaration statement s
      = (blockBody declaration >>= fun es => pure (Node.block es)) (s.skip 1) := by
  rw [statementStep, peek_bind, h]
  rfl

/-- The rest of a statement after its first word. -/
theorem skip_one_stands (htokens : EndsOnce tokens) (hs : s.StandsIn tokens) {kind : Kind}
    (hkind : s.cursor.current.kind = kind) (hne : kind ≠ .endOfFile) :
    (s.skip 1).StandsIn tokens ∧ (s.skip 1).cursor.index = s.cursor.index + 1 := by
  refine hs.skip_one htokens ?_
  rw [Bool.eq_false_iff, Ne, Reading.isAtEnd_iff, hkind]
  exact hne

/-- A branch or a body, in front of which nothing has been blamed. -/
theorem part_counts {opens : Reading → Prop} (h : CountedFrom tokens (s.cursor.index + 1))
    (hs₁ : s₁.StandsIn tokens) (hindex : s.cursor.index < s₁.cursor.index)
    (hopens : ∀ s', StatementOpens s₁ s' → opens s') : (statement s₁).Counts opens s₁ :=
  (h.statement s₁ hs₁ hindex).mono hopens

theorem statement_counts (htokens : EndsOnce tokens)
    (h : CountedFrom tokens (s.cursor.index + 1)) (hs : s.StandsIn tokens) :
    (statement s).Counts (StatementOpens s) s := by
  have hrecovery := inOrder_recovery htokens
  have hskip : (s.skip 1).endBlamed = s.endBlamed := rfl
  rw [statement_eq (hs.ends htokens)]
  cases hkind : s.cursor.current.kind with
  | printWord =>
    rw [statementStep_of_print hkind]
    exact (printFrom_keeps.counts _).of_eq hskip
  | ifWord =>
    obtain ⟨hs₁, hindex₁⟩ := skip_one_stands htokens hs hkind (by decide)
    rw [statementStep_of_if hkind, ifFrom_eq]
    refine Reply.Counts.of_eq ?_ hskip
    refine .bind (Keeps.counts (parenthesized_keeps rfl rfl) _) fun condition s₂ hcondition => ?_
    have hblames₂ := Keeps.blames (parenthesized_keeps rfl rfl) hcondition hs₁
    have hindex₂ := hblames₂.index
    refine .bind (part_counts h hblames₂.stands (by omega) fun _ => .thenBranch hkind hcondition)
      fun thenBranch s₃ hthen => ?_
    have hblames₃ := Keeps.blames statement_keeps hthen hblames₂.stands
    have hindex₃ := hblames₃.index
    refine .bind ?_ fun _ _ _ => .ok rfl
    rw [orMissing_apply]
    split
    · rename_i helse
      obtain ⟨hs₄, hindex₄⟩ := skip_one_stands htokens hblames₃.stands helse (by decide)
      exact (part_counts h hs₄ (by omega) fun _ => .elseBranch hkind hcondition hthen helse).of_eq rfl
    · exact .ok rfl
  | whileWord =>
    obtain ⟨hs₁, hindex₁⟩ := skip_one_stands htokens hs hkind (by decide)
    rw [statementStep_of_while hkind, whileFrom_eq]
    refine Reply.Counts.of_eq ?_ hskip
    refine .bind (Keeps.counts (parenthesized_keeps rfl rfl) _) fun condition s₂ hcondition => ?_
    have hblames₂ := Keeps.blames (parenthesized_keeps rfl rfl) hcondition hs₁
    have hindex₂ := hblames₂.index
    exact .bind (part_counts h hblames₂.stands (by omega) fun _ => .whileBody hkind hcondition)
      fun _ _ _ => .ok rfl
  | forWord =>
    obtain ⟨hs₁, hindex₁⟩ := skip_one_stands htokens hs hkind (by decide)
    rw [statementStep_of_for hkind, forFrom_eq]
    refine Reply.Counts.of_eq ?_ hskip
    refine .bind (Keeps.counts forClauses_keeps _) fun clauses s₂ hclauses => ?_
    have hblames₂ := Keeps.blames forClauses_keeps hclauses hs₁
    have hindex₂ := hblames₂.index
    exact .bind (part_counts h hblames₂.stands (by omega) fun _ => .forBody hkind hclauses)
      fun _ _ _ => .ok rfl
  | returnWord =>
    rw [statementStep_of_return hkind]
    exact returnStatement_keeps.counts s
  | leftBrace =>
    obtain ⟨hs₁, hindex₁⟩ := skip_one_stands htokens hs hkind (by decide)
    rw [statementStep_of_brace hkind]
    refine Reply.Counts.of_eq (.bind ?_ fun _ _ _ => .ok rfl) hskip
    refine (blockBody_counts htokens (hindex₁ ▸ h) hs₁).mono ?_
    rintro _ rfl
    exact .block hkind
  | _ =>
    rw [statementStep_of_other (by rw [hkind]; decide)]
    exact expressionStatement_keeps.counts s

theorem declarationStep_counts (htokens : EndsOnce tokens)
    (h : CountedFrom tokens (s.cursor.index + 1)) (hs : s.StandsIn tokens) :
    (declarationStep declaration statement s).Counts (DeclarationOpens s) s := by
  have hrecovery := inOrder_recovery htokens
  have hskip : (s.skip 1).endBlamed = s.endBlamed := rfl
  by_cases hfun : s.cursor.current.kind = .funWord
  · obtain ⟨hs₁, hindex₁⟩ := skip_one_stands htokens hs hfun (by decide)
    rw [declarationStep_of_function hfun, function_eq]
    refine Reply.Counts.of_eq ?_ hskip
    refine .bind (Keeps.counts functionHead_keeps _) fun head s₂ hhead => ?_
    have hblames₂ := Keeps.blames functionHead_keeps hhead hs₁
    have hindex₂ := hblames₂.index
    refine .bind ?_ fun _ _ _ => .ok rfl
    -- The statements of the body are read in a state that differs in its depth only.
    have hbody := blockBody_counts (s := { s₂ with depth := s₂.depth + 1 }) htokens
      (h.mono (show s.cursor.index + 1 ≤ s₂.cursor.index by omega)) hblames₂.stands
    rw [inFunction]
    generalize blockBody declaration { s₂ with depth := s₂.depth + 1 } = r at hbody ⊢
    cases hbody with
    | ok heq => exact .ok heq
    | stuck => exact .stuck
    | failed hwithin =>
      refine .failed (hwithin.imp_right ?_)
      rintro ⟨_, n, s₃, rfl, hnested⟩
      exact ⟨_, n, s₃, .function hfun hhead, hnested⟩
  by_cases hvar : s.cursor.current.kind = .varWord
  · rw [declarationStep_of_variable hvar]
    exact (variableFrom_keeps.counts _).of_eq hskip
  · rw [declarationStep_of_other (by simp [hfun, hvar])]
    exact (statement_counts htokens h hs).mono fun _ => .statement hfun hvar

/-- A declaration that is dropped blames the end of the source as often as what it is made of. -/
theorem declaration_counts (htokens : EndsOnce tokens)
    (h : CountedFrom tokens (s.cursor.index + 1)) (hs : s.StandsIn tokens)
    {found : Option Node} (hfound : declaration s = .ok found s') :
    s.EndsWithin (DeclarationOpens s) s' := by
  have hstep := declarationStep_counts htokens h hs
  have hrecovery := inOrder_recovery htokens
  have hkeeps := declarationStep_keeps (R := FindsInOrder tokens) (F := FailsInOrder tokens)
    declaration_keeps statement_keeps s
  rw [declaration_eq (hs.ends htokens), recovering] at hfound
  generalize declarationStep declaration statement s = r at hstep hkeeps hfound
  cases hstep with
  | ok heq =>
    cases hfound
    exact .inl (by omega)
  | stuck => cases hfound
  | @failed s₁ hwithin =>
    cases hkeeps with
    | failed hblames =>
      obtain ⟨s₂, hresume, -, herrors, -⟩ := resume_isLeast (hblames hs).stands htokens
      simp only [hresume] at hfound
      cases hfound
      rwa [EndsWithin, endBlamed, blamed, herrors]

/-- A loop of declarations blames the end of the source once more at most than it has blocks open
when the source ends. -/
theorem declarations_counts (htokens : EndsOnce tokens)
    (h : CountedFrom tokens (s.cursor.index + 1)) {stop : Reader Bool} {stops : Token → Bool}
    (hstop : EndsBefore stop stops) (hs : s.StandsIn tokens) {es : List Node}
    (hes : declarations stop s = .ok es s') :
    (s'.endBlamed = s.endBlamed ∧ Nested stop s 0 s') ∨ ∃ n s₁, Nested stop s n s₁ ∧
      s₁.cursor.isAtEnd = true ∧ s'.endBlamed ≤ s.endBlamed + n + 1 := by
  have hrecovery := inOrder_recovery htokens
  have hends := hs.ends htokens
  rw [declarations_eq hstop hends, turn, bind_of_ok (hstop.asks s)] at hes
  split at hes
  · cases hes
    exact .inl ⟨rfl, .here⟩
  rename_i hgoesOn
  have hasks : stop s = .ok false s := by
    rw [hstop.asks, Bool.eq_false_iff.mpr hgoesOn]
  obtain ⟨found, ts, s₁, hfound, hts, hpassed⟩ := declaration_ok hends
  have hblames := Keeps.blames declaration_keeps hfound hs
  have hends₁ := hblames.stands.ends htokens
  obtain ⟨es', us, s₂, hes', hus, hstops⟩ := declarations_ok hstop hends₁
  rw [bind_of_ok hfound, bind_of_ok hes'] at hes
  cases hes
  by_cases heq : s₁.endBlamed = s.endBlamed
  · -- The end has not been blamed yet, and the declarations that follow count.
    have hindex : s.cursor.index < s₁.cursor.index := by
      refine hs.index_lt_of_passed hblames.stands hts (hpassed ?_)
      rw [Bool.eq_false_iff]
      exact fun hend => hgoesOn (hstop.atEnd _ (Reading.isAtEnd_iff.mp hend))
    rcases h.declarations stop stops s₁ s' es' hstop hblames.stands hindex hes' with
      ⟨heq', hnested⟩ | ⟨n, s₃, hnested, hs₃, hle⟩
    · exact .inl ⟨heq'.trans heq, .next hasks hfound hnested⟩
    · exact .inr ⟨n, s₃, .next hasks hfound hnested, hs₃, by omega⟩
  · -- The end has been blamed, so it has been reached, and there are no more declarations.
    have hend := hblames.isAtEnd htokens heq
    have hlast : s' = s₁ := by
      rw [declarations_eq hstop hends₁, turn, bind_of_ok (hstop.asks s₁),
        if_pos (hstop.atEnd _ (Reading.isAtEnd_iff.mp hend))] at hes'
      cases hes'
      rfl
    subst hlast
    right
    rcases declaration_counts htokens h hs hfound with hle | ⟨s₃, n, s₄, hopens, hnested, hs₄, hle⟩
    · exact ⟨0, s', .next hasks hfound .here, hend, by omega⟩
    · exact ⟨n + 1, s₄, .enter hasks hopens hnested, hs₄, by omega⟩

/-- The number of tokens that are left is less wherever a statement, a declaration or a loop is
read by another one. -/
theorem countedFrom (htokens : EndsOnce tokens) (i : Nat) : CountedFrom tokens i := by
  induction hn : tokens.length - i using Nat.strongRecOn generalizing i with
  | ind n ih =>
    have hlater {s : Reading} (hs : s.StandsIn tokens) (hindex : i ≤ s.cursor.index) :
        CountedFrom tokens (s.cursor.index + 1) := by
      have hlt := hs.index_lt
      exact ih _ (by omega) _ rfl
    exact ⟨fun s hs hindex => statement_counts htokens (hlater hs hindex) hs,
      fun _ _ s s' es hstop hs hindex hes =>
        declarations_counts htokens (hlater hs hindex) hstop hs hes⟩

/-! ### Every open block blames the end of the source -/

/-- A block in a statement that is not closed breaks off the statement. -/
theorem failed_of_statementOpens (h : StatementOpens s s₁) (htokens : EndsOnce tokens)
    (hs : s.StandsIn tokens) : s₁.StandsIn tokens ∧ s.endBlamed ≤ s₁.endBlamed ∧
      ∀ s', blockBody declaration s₁ = .failed s' → statement s = .failed s' := by
  have hrecovery := inOrder_recovery htokens
  induction h with
  | block hword =>
    obtain ⟨hs₁, -⟩ := skip_one_stands htokens hs hword (by decide)
    refine ⟨hs₁, Nat.le_refl _, fun s' hfailed => ?_⟩
    rw [statement_eq (hs.ends htokens), statementStep_of_brace hword, bind_of_failed hfailed]
  | thenBranch hword hcondition _ ih =>
    obtain ⟨hs₁, -⟩ := skip_one_stands htokens hs hword (by decide)
    have hblames := Keeps.blames (parenthesized_keeps rfl rfl) hcondition hs₁
    obtain ⟨hstands, hle, hfails⟩ := ih hblames.stands
    refine ⟨hstands, hblames.endBlamed_le.trans hle, fun s' hfailed => ?_⟩
    rw [statement_eq (hs.ends htokens), statementStep_of_if hword, ifFrom_eq,
      bind_of_ok hcondition, bind_of_failed (hfails s' hfailed)]
  | elseBranch hword hcondition hthen helse _ ih =>
    obtain ⟨hs₁, -⟩ := skip_one_stands htokens hs hword (by decide)
    have hblames := Keeps.blames (parenthesized_keeps rfl rfl) hcondition hs₁
    have hblames' := Keeps.blames statement_keeps hthen hblames.stands
    obtain ⟨hs₃, -⟩ := skip_one_stands htokens hblames'.stands helse (by decide)
    obtain ⟨hstands, hle, hfails⟩ := ih hs₃
    refine ⟨hstands, (hblames.endBlamed_le.trans hblames'.endBlamed_le).trans hle,
      fun s' hfailed => ?_⟩
    rw [statement_eq (hs.ends htokens), statementStep_of_if hword, ifFrom_eq,
      bind_of_ok hcondition, bind_of_ok hthen]
    refine bind_of_failed ?_
    rw [orMissing_apply, if_pos helse, hfails s' hfailed]
  | whileBody hword hcondition _ ih =>
    obtain ⟨hs₁, -⟩ := skip_one_stands htokens hs hword (by decide)
    have hblames := Keeps.blames (parenthesized_keeps rfl rfl) hcondition hs₁
    obtain ⟨hstands, hle, hfails⟩ := ih hblames.stands
    refine ⟨hstands, hblames.endBlamed_le.trans hle, fun s' hfailed => ?_⟩
    rw [statement_eq (hs.ends htokens), statementStep_of_while hword, whileFrom_eq,
      bind_of_ok hcondition, bind_of_failed (hfails s' hfailed)]
  | forBody hword hclauses _ ih =>
    obtain ⟨hs₁, -⟩ := skip_one_stands htokens hs hword (by decide)
    have hblames := Keeps.blames forClauses_keeps hclauses hs₁
    obtain ⟨hstands, hle, hfails⟩ := ih hblames.stands
    refine ⟨hstands, hblames.endBlamed_le.trans hle, fun s' hfailed => ?_⟩
    rw [statement_eq (hs.ends htokens), statementStep_of_for hword, forFrom_eq,
      bind_of_ok hclauses, bind_of_failed (hfails s' hfailed)]

/-- A block in a declaration that is not closed makes it be dropped. -/
theorem failed_of_declarationOpens (h : DeclarationOpens s s₁) (htokens : EndsOnce tokens)
    (hs : s.StandsIn tokens) : s₁.StandsIn tokens ∧ s.endBlamed ≤ s₁.endBlamed ∧
      ∀ s', blockBody declaration s₁ = .failed s' → ∃ s₂,
        declarationStep declaration statement s = .failed s₂ ∧ s₂.cursor = s'.cursor ∧
          s₂.errors = s'.errors := by
  have hrecovery := inOrder_recovery htokens
  cases h with
  | function hword hhead =>
    obtain ⟨hs₁, -⟩ := skip_one_stands htokens hs hword (by decide)
    have hblames := Keeps.blames functionHead_keeps hhead hs₁
    refine ⟨hblames.stands, hblames.endBlamed_le, fun s' hfailed => ?_⟩
    refine ⟨{ s' with depth := s'.depth - 1 }, ?_, rfl, rfl⟩
    rw [declarationStep_of_function hword, function_eq, bind_of_ok hhead]
    refine bind_of_failed ?_
    simp only [inFunction, hfailed]
  | statement hfun hvar hopens =>
    obtain ⟨hstands, hle, hfails⟩ := failed_of_statementOpens hopens htokens hs
    refine ⟨hstands, hle, fun s' hfailed => ⟨s', ?_, rfl, rfl⟩⟩
    rw [declarationStep_of_other (by simp [hfun, hvar]), hfails s' hfailed]

/-- One turn of a loop that goes on. -/
theorem declarations_of_turn {stop : Reader Bool} {stops : Token → Bool}
    (hstop : EndsBefore stop stops) (hs : s.Ends) (hasks : stop s = .ok false s)
    {found : Option Node} (hfound : declaration s = .ok found s₁) {es : List Node}
    (hes : declarations stop s = .ok es s') : ∃ es', declarations stop s₁ = .ok es' s' := by
  rw [declarations_eq hstop hs, turn, bind_of_ok hasks, if_neg Bool.false_ne_true,
    bind_of_ok hfound] at hes
  obtain ⟨_, ts, s₂, hfound', hts, -⟩ := declaration_ok hs
  rw [hfound] at hfound'
  cases hfound'
  obtain ⟨es', us, s₂, hes', -, -⟩ := declarations_ok hstop (hts.endsOnce hs)
  rw [bind_of_ok hes'] at hes
  cases hes
  exact ⟨es', hes'⟩

/-- A loop goes no further than the end of the source. -/
theorem declarations_of_end {stop : Reader Bool} {stops : Token → Bool}
    (hstop : EndsBefore stop stops) (hs : s.Ends) (hend : s.cursor.isAtEnd = true) {es : List Node}
    (hes : declarations stop s = .ok es s') : s' = s := by
  rw [declarations_eq hstop hs, turn, bind_of_ok (hstop.asks s),
    if_pos (hstop.atEnd _ (Reading.isAtEnd_iff.mp hend))] at hes
  cases hes
  rfl

/-- Where the source ends with so many blocks open, its end is blamed that often at least. -/
theorem nested_le_endBlamed {stop : Reader Bool} (h : Nested stop s n s₁)
    (hend : s₁.cursor.isAtEnd = true) (htokens : EndsOnce tokens) {stops : Token → Bool}
    (hstop : EndsBefore stop stops) (hs : s.StandsIn tokens) {es : List Node}
    (hes : declarations stop s = .ok es s') :
    s'.cursor.isAtEnd = true ∧ s.endBlamed + n ≤ s'.endBlamed := by
  have hrecovery := inOrder_recovery htokens
  induction h generalizing es s' stops with
  | here =>
    obtain rfl := declarations_of_end hstop (hs.ends htokens) hend hes
    exact ⟨hend, Nat.le_refl _⟩
  | next hasks hfound _ ih =>
    have hblames := Keeps.blames declaration_keeps hfound hs
    obtain ⟨es', hes'⟩ := declarations_of_turn hstop (hs.ends htokens) hasks hfound hes
    obtain ⟨hatEnd, hle⟩ := ih hend hstop hblames.stands hes'
    have hle' := hblames.endBlamed_le
    exact ⟨hatEnd, by omega⟩
  | @enter stop s s₁ s₂ n hasks hopens _ ih =>
    obtain ⟨hs₁, hle₁, hfails⟩ := failed_of_declarationOpens hopens htokens hs
    obtain ⟨es₁, ts, s₃, hes₁, -, -⟩ := declarations_ok endsBefore_blockEnd (hs₁.ends htokens)
    obtain ⟨hend₃, hle₃⟩ := ih hend endsBefore_blockEnd hs₁ hes₁
    -- The block is not closed, which blames the end once more than what is in the block.
    have hbody : blockBody declaration s₁ = .failed (recorded s₃ (faultHere s₃ .braceAfterBlock)) := by
      rw [blockBody_eq, bind_of_ok hes₁, expect_bind, if_neg]
      rw [Reading.isAtEnd_iff.mp hend₃]
      decide
    obtain ⟨s₄, hstep, hcursor, herrors⟩ := hfails _ hbody
    have hs₄ : s₄.StandsIn tokens := by
      have hblames := Keeps.blames (declarations_keeps .atBlockEnd) hes₁ hs₁
      rw [StandsIn, rest, hcursor]
      exact hblames.stands
    obtain ⟨s₅, hresume, hs₅, herrors₅, hleast⟩ := resume_isLeast hs₄ htokens
    have hdropped : declaration s = .ok none s₅ := by
      rw [declaration_eq (hs.ends htokens), recovering, hstep]
      simp only [hresume]
    have hend₅ : s₅.cursor.isAtEnd = true := by
      have hindex := hleast.1.1
      have hlt := hs₅.index_lt
      have hend₄ : s₄.cursor.isAtEnd = true := by
        rw [hcursor]
        exact hend₃
      rw [hs₄.isAtEnd_iff htokens] at hend₄
      rw [hs₅.isAtEnd_iff htokens]
      omega
    have hcount : s₅.endBlamed = s₃.endBlamed + 1 := by
      have hrecorded := s₃.endBlamed_recorded .braceAfterBlock rfl
      rw [hend₃, if_pos rfl] at hrecorded
      rw [← hrecorded, endBlamed, endBlamed, blamed, blamed, herrors₅, herrors]
    obtain ⟨es', hes'⟩ := declarations_of_turn hstop (hs.ends htokens) hasks hdropped hes
    obtain rfl := declarations_of_end hstop (hs₅.ends htokens) hend₅ hes'
    exact ⟨hend₅, by omega⟩

end Reader

/-! ### Programs -/

/-- The errors of a program for which reading was given up. -/
def Program.blamed (p : Program) : List SyntaxError := p.errors.filter (·.fault.unwinds)

/-- Where reading stands at the end of the source with so many blocks open. -/
def EndsInside (tokens : List Token) (n : Nat) : Prop :=
  ∃ c s, Cursor.ofTokens? tokens = some c ∧ Nested atEnd (.start c) n s ∧ s.cursor.isAtEnd = true

/-- No token is blamed twice.  The listener is told of the errors of a program, in order.  Those for
which reading was given up are of tokens of the source, each one of a later token than the one
before it, unless both are of the end of the source.  This is blamed as often as there are blocks
open when it is reached, those of functions included, or once more. -/
theorem no_token_blamed_twice {tokens : List Token} (htokens : EndsOnce tokens) :
    let p := Program.ofTokens tokens
    p.heard = p.errors ∧ (∀ e ∈ p.blamed, tokens[e.index]? = some e.token) ∧
      p.blamed.Pairwise (fun e e' => e.index < e'.index ∨
        e.token.kind = .endOfFile ∧ e'.token.kind = .endOfFile) ∧
      ∃ n, IsGreatest {n | EndsInside tokens n} n ∧
        n ≤ p.blamed.countP (·.token.kind == .endOfFile) ∧
        p.blamed.countP (·.token.kind == .endOfFile) ≤ n + 1 := by
  intro p
  obtain ⟨c, statements, s, hc, hread, hp, hend, -⟩ := program_ok htokens
  have hstart : (Reading.start c).StandsIn tokens := by
    cases tokens with
    | nil => cases hc
    | cons t ts =>
      cases hc
      rfl
  have hrecovery := inOrder_recovery htokens
  rw [program_eq] at hread
  obtain ⟨new, hblamed, hordered, hnew⟩ :=
    (Keeps.blames (declarations_keeps .atEnd) hread hstart).blamed
  have hblamed' : p.blamed = new := by
    show (Program.ofTokens tokens).blamed = new
    rw [hp]
    exact hblamed
  have hcount : s.endBlamed = p.blamed.countP (·.token.kind == .endOfFile) := by
    rw [endBlamed, hblamed, hblamed']
    rfl
  have hzero : (Reading.start c).endBlamed = 0 := rfl
  have hbound : ∀ n, EndsInside tokens n → n ≤ s.endBlamed := by
    rintro n ⟨c', s₁, hc', hnested, hs₁⟩
    obtain rfl := Option.some.inj (hc.symm.trans hc')
    have hle := (nested_le_endBlamed hnested hs₁ htokens endsBefore_end hstart hread).2
    omega
  -- With some number of blocks open the end is reached so that the upper bound holds.
  obtain ⟨n, hn, hle⟩ : ∃ n, EndsInside tokens n ∧ s.endBlamed ≤ n + 1 := by
    rcases (countedFrom htokens 0).declarations _ _ _ _ _ endsBefore_end hstart (Nat.zero_le _) hread
      with ⟨heq, hnested⟩ | ⟨n, s₁, hnested, hs₁, hle⟩
    · exact ⟨0, ⟨c, s, hc, hnested, hend⟩, by omega⟩
    · exact ⟨n, ⟨c, s₁, hc, hnested, hs₁⟩, by omega⟩
  refine ⟨Program.heard_ofTokens tokens, ?_, ?_, ?_⟩
  · rw [hblamed']
    exact fun e he => (hnew e he).1
  · rw [hblamed']
    exact hordered
  rw [← hcount]
  by_cases hmore : EndsInside tokens (n + 1)
  · have hle' := hbound _ hmore
    exact ⟨n + 1, ⟨hmore, fun m hm => (hbound m hm).trans hle⟩, hle', by omega⟩
  · refine ⟨n, ⟨hn, fun m hm => ?_⟩, hbound n hn, hle⟩
    have hle' := (hbound m hm).trans hle
    refine Nat.le_of_lt_succ (lt_of_le_of_ne hle' ?_)
    rintro rfl
    exact hmore hm

/-- In `\x7b \x7b print` the end of the source is blamed once by the statement that it breaks off and
once by each of the two blocks. -/
theorem no_token_blamed_twice_of_open_blocks :
    let p := Program.ofTokens (tokensOf "\x7b \x7b print")
    p.heard = p.errors ∧ p.blamed.countP (·.token.kind == .endOfFile) = 3 ∧
      ∃ n, IsGreatest {n | EndsInside (tokensOf "\x7b \x7b print") n} n ∧ n ≤ 3 ∧ 3 ≤ n + 1 := by
  intro p
  have hcount : p.blamed.countP (·.token.kind == .endOfFile) = 3 := by decide +kernel
  obtain ⟨hheard, -, -, hends⟩ := no_token_blamed_twice (tokensOf_endsOnce "\x7b \x7b print")
  rw [hcount] at hends
  exact ⟨hheard, hcount, hends⟩

end LoxLang
