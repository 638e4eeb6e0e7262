/-
Bounds that do not show.

A reader with a smaller bound does what it does with a larger one, or it is stuck.  This is kept
by all ways to put readers together (`Reader.Below`), along with whatever is kept by moving on,
recording an error and entering or leaving a function body (`Reading.Stable`).

* `Reader.Below.bind`, `Reader.Below.expect`, ... — one rule for each way to put readers
  together, and for each of the basic ones;
* `Reader.expressions_upTo_below`, `Reader.statements_upTo_below` — a larger bound changes
  nothing, unless the reader is stuck with the smaller one;
* `Reader.program_below` — what the basic readers keep, a whole program keeps;
* `Program.heard_ofTokens` — so the listener is told of every error, when it is recorded.
-/
import LoxLang.Program
import LoxLang.Proofs.Reader.StatementSoundness

namespace LoxLang

/-- What moving on, recording an error and entering or leaving a function body keep. -/
class Reading.Stable (P : Reading → Prop) : Prop where
  next : ∀ {s : Reading}, P s → P { s with cursor := s.cursor.next }
  recorded : ∀ {s : Reading} (e : SyntaxError), P s → P (Reader.recorded s e)
  withDepth : ∀ {s : Reading} (d : Nat), P s → P { s with depth := d }

variable {P : Reading → Prop}

/-- The first reply is stuck, or the other one is the same and ends in a state as it should be. -/
inductive Reply.Below (P : Reading → Prop) {α : Type} : Reply α → Reply α → Prop where
  | ok {a : α} {s : Reading} (hs : P s) : Below P (.ok a s) (.ok a s)
  | failed {s : Reading} (hs : P s) : Below P (.failed s) (.failed s)
  | stuck {r : Reply α} : Below P .stuck r

namespace Reply.Below

variable {α : Type} {r r' : Reply α}

theorem eq_of_ne_stuck (h : r.Below P r') (hr : r ≠ .stuck) : r = r' := by
  cases h with
  | ok _ => rfl
  | failed _ => rfl
  | stuck => exact absurd rfl hr

theorem symm_of_ne_stuck (h : r.Below P r') (hr : r ≠ .stuck) : r'.Below P r := by
  cases h with
  | ok hs => exact .ok hs
  | failed hs => exact .failed hs
  | stuck => exact absurd rfl hr

end Reply.Below

/-- The first reader does what the other one does, or it is stuck. -/
def Reader.Below (P : Reading → Prop) {α : Type} (p q : Reader α) : Prop :=
  ∀ s, P s → (p s).Below P (q s)

namespace Reader

variable {α β : Type}

/-! ### Basic readers -/

namespace Below

theorem pure (a : α) : Below P (Pure.pure a) (Pure.pure a) := fun _ hs => .ok hs

theorem bind {p q : Reader α} {f g : α → Reader β} (hpq : Below P p q)
    (hfg : ∀ a, Below P (f a) (g a)) : Below P (p >>= f) (q >>= g) := by
  intro s hs
  have h := hpq s hs
  dsimp only [Bind.bind]
  generalize p s = r, q s = r' at h ⊢
  cases h with
  | ok hs => exact hfg _ _ hs
  | failed hs => exact .failed hs
  | stuck => exact .stuck

theorem ite {p q p' q' : Reader α} {c : Prop} [Decidable c] (hyes : Below P p q)
    (hno : Below P p' q') : Below P (if c then p else p') (if c then q else q') := by
  split
  · exact hyes
  · exact hno

/-- A reader that asks a question first. -/
theorem ask {p q : Reader Bool} {yes no yes' no' : Reader α} (hpq : Below P p q)
    (hyes : Below P yes yes') (hno : Below P no no') :
    Below P (p >>= fun b => if b then yes else no) (q >>= fun b => if b then yes' else no') :=
  hpq.bind fun _ => hyes.ite hno

theorem stuck {q : Reader α} : Below P stuck q := fun _ _ => .stuck

theorem peek : Below P peek peek := fun _ hs => .ok hs

theorem position : Below P position position := fun _ hs => .ok hs

theorem atEnd : Below P atEnd atEnd := fun _ hs => .ok hs

theorem atBlockEnd : Below P atBlockEnd atBlockEnd := fun _ hs => .ok hs

theorem check (kinds : List Kind) : Below P (check kinds) (check kinds) := fun _ hs => .ok hs

theorem bounded {p q : Nat → Reader α} (h : ∀ n, Below P (p n) (q n)) :
    Below P (bounded p) (bounded q) :=
  fun s hs => h s.bound s hs

variable [Reading.Stable P]

theorem advance : Below P advance advance := fun _ hs => .ok (Reading.Stable.next hs)

theorem report (t : Token) (index : Nat) (fault : SyntaxFault) :
    Below P (report t index fault) (report t index fault) :=
  fun _ hs => .ok (Reading.Stable.recorded _ hs)

theorem fail (fault : SyntaxFault) : Below P (fail fault : Reader α) (fail fault) :=
  fun _ hs => .failed (Reading.Stable.recorded _ hs)

theorem expect (kind : Kind) (fault : SyntaxFault) :
    Below P (expect kind fault) (expect kind fault) :=
  .ask (check [kind]) advance (fail fault)

theorem accept (kind : Kind) : Below P (accept kind) (accept kind) :=
  .ask (check [kind]) (.bind advance fun _ => .pure true) (.pure false)

end Below

variable [Reading.Stable P]

/-! ### Parts separated by commas -/

theorem separated_below {part part' : Reader α} (hpart : Below P part part')
    (tooMany : SyntaxFault) (n count : Nat) :
    Below P (separated part tooMany n count) (separated part' tooMany n count) := by
  induction n generalizing count with
  | zero => exact .stuck
  | succ n ih =>
    have hstep : Below P (separatedStep part (separated part tooMany n (count + 1)))
        (separatedStep part' (separated part' tooMany n (count + 1))) :=
      .bind hpart fun a =>
        .ask (.accept .comma) (.bind (ih _) fun as => .pure (a :: as)) (.pure [a])
    intro s hs
    rw [separated_succ, separated_succ]
    split
    · exact hstep _ (Reading.Stable.recorded _ hs)
    · exact hstep s hs

theorem listing_below {part part' : Reader α} (hpart : Below P part part')
    (tooMany : SyntaxFault) : Below P (listing part tooMany) (listing part' tooMany) :=
  .ask (.check _) (.pure []) (.bounded fun n => separated_below hpart tooMany n 0)

/-! ### Expressions -/

section

variable {expression expression' unary unary' operand operand' : Reader Node}

theorem chainFrom_below (hoperand : Below P operand operand') (kinds : List Kind)
    (build : Node → Mark → Node → Node) (n : Nat) (e : Node) :
    Below P (chainFrom operand kinds build n e) (chainFrom operand' kinds build n e) := by
  induction n generalizing e with
  | zero => exact .stuck
  | succ n ih =>
    exact .ask (.check kinds) (.bind .advance fun _ => .bind hoperand fun _ => ih _) (.pure e)

theorem chain_below (hoperand : Below P operand operand') (kinds : List Kind)
    (build : Node → Mark → Node → Node) :
    Below P (chain operand kinds build) (chain operand' kinds build) :=
  .bind hoperand fun e => .bounded fun n => chainFrom_below hoperand kinds build n e

theorem operands_below (hunary : Below P unary unary') (levels : List Grammar.Level) :
    Below P (operands levels unary) (operands levels unary') := by
  induction levels with
  | nil => exact hunary
  | cons level levels ih => exact chain_below ih _ _

theorem assignment_below (hexpression : Below P expression expression')
    (hunary : Below P unary unary') :
    Below P (assignment expression unary) (assignment expression' unary') := by
  refine .bind (operands_below hunary Grammar.levels) fun target => ?_
  refine .ask (.check _) ?_ (.pure target)
  refine .bind .position fun index => .bind .advance fun equals => ?_
  refine .bind hexpression fun value => ?_
  split
  · exact .pure _
  · exact .bind (.report equals index _) fun _ => .pure target

theorem literal_below (value : Json) : Below P (literal value) (literal value) :=
  .bind .advance fun _ => .pure _

theorem primary_below (hexpression : Below P expression expression') :
    Below P (primary expression) (primary expression') := by
  refine .bind .peek fun t => ?_
  split
  · exact literal_below _
  · exact literal_below _
  · exact literal_below _
  · exact literal_below _
  · exact .ite (literal_below _) (.fail _)
  · exact .bind .advance fun _ => .pure _
  · refine .bind .advance fun _ => .bind hexpression fun e => ?_
    exact .bind (.expect _ _) fun _ => .pure _
  · exact .fail _
  · exact .fail _

theorem callsFrom_below (hexpression : Below P expression expression') (n : Nat) (e : Node) :
    Below P (callsFrom expression n e) (callsFrom expression' n e) := by
  induction n generalizing e with
  | zero => exact .stuck
  | succ n ih =>
    refine .ask (.accept _) (.bind (listing_below hexpression _) fun es => ?_) (.pure e)
    exact .bind (.expect _ _) fun _ => ih _

theorem called_below (hexpression : Below P expression expression') :
    Below P (called expression) (called expression') :=
  .bind (primary_below hexpression) fun e => .bounded fun n => callsFrom_below hexpression n e

theorem prefixed_below (hexpression : Below P expression expression')
    (hunary : Below P unary unary') :
    Below P (prefixed expression unary) (prefixed expression' unary') :=
  .ask (.check _) (.bind .advance fun _ => .bind hunary fun _ => .pure _)
    (called_below hexpression)

end

/-- A larger bound changes nothing, unless the reader is stuck with the smaller one. -/
theorem expressions_upTo_below {m n : Nat} (hmn : m ≤ n) :
    Below P (expressionUpTo m) (expressionUpTo n) ∧ Below P (unaryUpTo m) (unaryUpTo n) := by
  induction m generalizing n with
  | zero => exact ⟨.stuck, .stuck⟩
  | succ m ih =>
    obtain ⟨n, rfl⟩ : ∃ i, n = i + 1 := ⟨n - 1, by omega⟩
    obtain ⟨hexpression, hunary⟩ := ih (Nat.le_of_succ_le_succ hmn)
    exact ⟨assignment_below hexpression hunary, prefixed_below hexpression hunary⟩

theorem expression_below : Below P expression expression :=
  .bounded fun n => (expressions_upTo_below (Nat.le_refl n)).1

/-! ### Statements -/

theorem skipToBoundary_below (n : Nat) : Below P (skipToBoundary n) (skipToBoundary n) := by
  induction n with
  | zero => exact .stuck
  | succ n ih =>
    intro s hs
    rw [skipToBoundary]
    beta_reduce
    split
    · exact .ok hs
    · exact ih _ (Reading.Stable.next hs)

theorem resume_below : Below P resume resume :=
  .bind .advance fun _ => .bounded skipToBoundary_below

theorem recovering_below {p q : Reader Node} (hpq : Below P p q) :
    Below P (recovering p) (recovering q) := by
  intro s hs
  rw [recovering, recovering]
  have h := hpq s hs
  generalize p s = r, q s = r' at h ⊢
  cases h with
  | ok hs => exact .ok hs
  | @failed s hs =>
    dsimp only
    have h := resume_below s hs
    generalize resume s = r at h ⊢
    cases h with
    | ok hs => exact .ok hs
    | failed hs => exact .failed hs
    | stuck => exact .stuck
  | stuck => exact .stuck

theorem inFunction_below {p q : Reader α} (hpq : Below P p q) :
    Below P (inFunction p) (inFunction q) := by
  intro s hs
  rw [inFunction, inFunction]
  have h := hpq _ (Reading.Stable.withDepth (s.depth + 1) hs)
  generalize p { s with depth := s.depth + 1 } = r, q { s with depth := s.depth + 1 } = r' at h ⊢
  cases h with
  | ok hs => exact .ok (Reading.Stable.withDepth _ hs)
  | failed hs => exact .failed (Reading.Stable.withDepth _ hs)
  | stuck => exact .stuck

theorem parameter_below : Below P parameter parameter :=
  .bind (.expect _ _) fun _ => .pure _

theorem orMissing_below (kind : Kind) {p q : Reader Node} (hpq : Below P p q) :
    Below P (orMissing kind p) (orMissing kind q) :=
  .ask (.accept kind) hpq (.pure _)

theorem parenthesized_below (before after : SyntaxFault) :
    Below P (parenthesized before after) (parenthesized before after) :=
  .bind (.expect _ _) fun _ => .bind expression_below fun _ => .bind (.expect _ _) fun _ =>
    .pure _

theorem variableFrom_below : Below P variableFrom variableFrom := by
  rw [variableFrom_eq]
  exact .bind (.expect _ _) fun _ => .bind (orMissing_below _ expression_below) fun _ =>
    .bind (.expect _ _) fun _ => .pure _

theorem expressionStatement_below : Below P expressionStatement expressionStatement :=
  .bind expression_below fun _ => .bind (.expect _ _) fun _ => .pure _

theorem printFrom_below : Below P printFrom printFrom :=
  .bind expression_below fun _ => .bind (.expect _ _) fun _ => .pure _

theorem forInitializer_below : Below P forInitializer forInitializer :=
  .ask (.accept _) (.pure _) (.ask (.accept _) variableFrom_below expressionStatement_below)

theorem optionalBefore_below (kind : Kind) :
    Below P (optionalBefore kind) (optionalBefore kind) :=
  .ask (.check _) (.pure _) expression_below

theorem demandFunction_below (keyword : Token) (index : Nat) :
    Below P (demandFunction keyword index) (demandFunction keyword index) := by
  intro s hs
  rw [demandFunction]
  split
  · exact Below.report keyword index _ s hs
  · exact .ok hs

theorem returnStatement_below : Below P returnStatement returnStatement :=
  .bind .position fun index => .bind .advance fun keyword =>
    .bind (demandFunction_below keyword index) fun _ => .bind (optionalBefore_below _) fun _ =>
      .bind (.expect _ _) fun _ => .pure _

section

variable {declaration declaration' : Reader (Option Node)} {statement statement' : Reader Node}

omit [Reading.Stable P] in
theorem declarationsUntil_below {stop : Reader Bool} (hstop : Below P stop stop)
    (hdeclaration : Below P declaration declaration') {m n : Nat} (hmn : m ≤ n) :
    Below P (declarationsUntil stop declaration m) (declarationsUntil stop declaration' n) := by
  induction m generalizing n with
  | zero => exact .stuck
  | succ m ih =>
    obtain ⟨n, rfl⟩ : ∃ i, n = i + 1 := ⟨n - 1, by omega⟩
    exact .ask hstop (.pure []) (.bind hdeclaration fun _ =>
      .bind (ih (Nat.le_of_succ_le_succ hmn)) fun _ => .pure _)

theorem blockBody_below (hdeclaration : Below P declaration declaration') :
    Below P (blockBody declaration) (blockBody declaration') :=
  .bind (.bounded fun n => declarationsUntil_below .atBlockEnd hdeclaration (Nat.le_refl n))
    fun _ => .bind (.expect _ _) fun _ => .pure _

theorem function_below (hdeclaration : Below P declaration declaration') :
    Below P (function declaration) (function declaration') :=
  .bind (.expect _ _) fun _ => .bind (.expect _ _) fun _ =>
    .bind (listing_below parameter_below _) fun _ => .bind (.expect _ _) fun _ =>
      .bind (.expect _ _) fun _ => .bind (inFunction_below (blockBody_below hdeclaration))
        fun _ => .pure _

theorem ifFrom_below (hstatement : Below P statement statement') :
    Below P (ifFrom statement) (ifFrom statement') := by
  rw [ifFrom_eq, ifFrom_eq]
  exact .bind (parenthesized_below _ _) fun _ => .bind hstatement fun _ =>
    .bind (orMissing_below _ hstatement) fun _ => .pure _

theorem whileFrom_below (hstatement : Below P statement statement') :
    Below P (whileFrom statement) (whileFrom statement') := by
  rw [whileFrom_eq, whileFrom_eq]
  exact .bind (parenthesized_below _ _) fun _ => .bind hstatement fun _ => .pure _

theorem forFrom_below (hstatement : Below P statement statement') :
    Below P (forFrom statement) (forFrom statement') :=
  .bind (.expect _ _) fun _ => .bind forInitializer_below fun _ =>
    .bind (optionalBefore_below _) fun _ => .bind (.expect _ _) fun _ =>
      .bind (optionalBefore_below _) fun _ => .bind (.expect _ _) fun _ =>
        .bind hstatement fun _ => .pure _

theorem statementStep_below (hdeclaration : Below P declaration declaration')
    (hstatement : Below P statement statement') :
    Below P (statementStep declaration statement) (statementStep declaration' statement') := by
  refine .bind .peek fun t => ?_
  split
  · exact .bind .advance fun _ => printFrom_below
  · exact .bind .advance fun _ => ifFrom_below hstatement
  · exact .bind .advance fun _ => whileFrom_below hstatement
  · exact .bind .advance fun _ => forFrom_below hstatement
  · exact returnStatement_below
  · exact .bind .advance fun _ => .bind (blockBody_below hdeclaration) fun _ => .pure _
  · exact expressionStatement_below

theorem declarationStep_below (hdeclaration : Below P declaration declaration')
    (hstatement : Below P statement statement') :
    Below P (declarationStep declaration statement) (declarationStep declaration' statement') :=
  .ask (.accept _) (function_below hdeclaration) (.ask (.accept _) variableFrom_below hstatement)

end

theorem statements_upTo_below {m n : Nat} (hmn : m ≤ n) :
    Below P (declarationUpTo m) (declarationUpTo n) ∧
      Below P (statementUpTo m) (statementUpTo n) := by
  induction m generalizing n with
  | zero => exact ⟨.stuck, .stuck⟩
  | succ m ih =>
    obtain ⟨n, rfl⟩ : ∃ i, n = i + 1 := ⟨n - 1, by omega⟩
    obtain ⟨hdeclaration, hstatement⟩ := ih (Nat.le_of_succ_le_succ hmn)
    exact ⟨recovering_below (declarationStep_below hdeclaration hstatement),
      statementStep_below hdeclaration hstatement⟩

theorem declaration_below : Below P declaration declaration :=
  .bounded fun n => (statements_upTo_below (Nat.le_refl n)).1

/-- What the basic readers keep is kept by the reader of a whole program. -/
theorem program_below : Below P program program :=
  .bounded fun n => declarationsUntil_below .atEnd declaration_below (Nat.le_refl n)

end Reader

/-! ### The listener -/

/-- The listener has been told of the errors that have been recorded, and of no others. -/
def Reading.ToldAll (s : Reading) : Prop := s.heard = s.errors

instance : Reading.Stable Reading.ToldAll where
  next hs := hs
  recorded e hs := congrArg (· ++ [e]) hs
  withDepth _ hs := hs

/-- The listener is told of the errors of a program, in the order in which they are found. -/
theorem Program.heard_ofTokens (tokens : List Token) :
    (ofTokens tokens).heard = (ofTokens tokens).errors := by
  rw [ofTokens]
  split
  · rfl
  · rename_i c _
    have h := Reader.program_below (P := Reading.ToldAll) (.start c) rfl
    generalize Reader.program (.start c) = r at h ⊢
    cases h with
    | ok hs => exact hs
    | failed hs => exact hs
    | stuck => rfl

end LoxLang
