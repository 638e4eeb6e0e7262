/-
What a reader does to the state it is in.

A reader goes from one state to another by moving on, by recording an error that it can live with,
or by entering and leaving a function body; it gives up only when it has recorded an error of the
current token.  So two relations, one for readers that find something and one for those that give
up, hold of all readers if they hold of these (`Reading.Conduct`), and they hold of readers that
contain declarations if they survive going on after a fault as well (`Reading.Recovery`).

* `Reader.Keeps.bind`, `Reader.Keeps.expect`, ... — one rule for each way to put readers together,
  and for each of the basic ones;
* `Reader.expression_keeps`, `Reader.statementStep_keeps` — what is made of these;
* `Reader.declaration_keeps`, `Reader.declarations_keeps` — with declarations that are dropped.
-/
import LoxLang.Proofs.Reader.Progress

namespace LoxLang

/-- `R` holds between the state in which a reader begins and the one in which it has found
something, and `F` between the first one and the one in which it gives up. -/
class Reading.Conduct (R F : Reading → Reading → Prop) : Prop where
  refl : ∀ s, R s s
  trans : ∀ {s s' s''}, R s s' → R s' s'' → R s s''
  after : ∀ {s s' s''}, R s s' → F s' s'' → F s s''
  next : ∀ s, R s { s with cursor := s.cursor.next }
  noted : ∀ s (e : SyntaxError), e.fault.unwinds = false → R s (Reader.recorded s e)
  fault : ∀ s fault, fault.unwinds = true → F s (Reader.recorded s (Reader.faultHere s fault))

/-- Where a reader has given up, `R` holds again as soon as the current token has been passed. -/
class Reading.Recovery (R F : Reading → Reading → Prop) : Prop extends Reading.Conduct R F where
  resumed : ∀ {s s'}, F s s' → R s { s' with cursor := s'.cursor.next }
  withDepth : ∀ s d, R s { s with depth := d }
  fault_withDepth : ∀ {s s'} d, F s s' → F s { s' with depth := d }

variable {R F : Reading → Reading → Prop}

/-- The reply is as it should be for a reader that began in the state `s`. -/
inductive Reply.Keeps (R F : Reading → Reading → Prop) {α : Type} (s : Reading) : Reply α → Prop where
  | ok {a : α} {s' : Reading} (h : R s s') : Keeps R F s (.ok a s')
  | failed {s' : Reading} (h : F s s') : Keeps R F s (.failed s')
  | stuck : Keeps R F s .stuck

/-- All replies of the reader are as they should be. -/
def Reader.Keeps (R F : Reading → Reading → Prop) {α : Type} (p : Reader α) : Prop :=
  ∀ s, (p s).Keeps R F s

namespace Reader

open Reading

variable {α β : Type}

namespace Keeps

theorem of_ok {p : Reader α} {s s' : Reading} {a : α} (hp : Keeps R F p) (h : p s = .ok a s') :
    R s s' := by
  have hps := hp s
  rw [h] at hps
  cases hps with
  | ok h => exact h

theorem of_failed {p : Reader α} {s s' : Reading} (hp : Keeps R F p) (h : p s = .failed s') :
    F s s' := by
  have hps := hp s
  rw [h] at hps
  cases hps with
  | failed h => exact h

theorem ite {p q : Reader α} {c : Prop} [Decidable c] (hp : Keeps R F p) (hq : Keeps R F q) :
    Keeps R F (if c then p else q) := by
  split
  · exact hp
  · exact hq

theorem stuck : Keeps R F (stuck : Reader α) := fun _ => .stuck

theorem bounded {p : Nat → Reader α} (h : ∀ n, Keeps R F (p n)) : Keeps R F (bounded p) :=
  fun s => h s.bound s

variable [Conduct R F]

theorem pure (a : α) : Keeps R F (Pure.pure a) := fun s => .ok (Conduct.refl F s)

theorem bind {p : Reader α} {f : α → Reader β} (hp : Keeps R F p) (hf : ∀ a, Keeps R F (f a)) :
    Keeps R F (p >>= f) := by
  intro s
  have h := hp s
  dsimp only [Bind.bind]
  generalize p s = r at h ⊢
  cases h with
  | @ok a s' h =>
    have h' := hf a s'
    dsimp only
    generalize f a s' = r at h' ⊢
    cases h' with
    | ok h' => exact .ok (Conduct.trans F h h')
    | failed h' => exact .failed (Conduct.after h h')
    | stuck => exact .stuck
  | failed h => exact .failed h
  | stuck => exact .stuck

/-- A reader that asks a question first. -/
theorem ask {p : Reader Bool} {yes no : Reader α} (hp : Keeps R F p) (hyes : Keeps R F yes)
    (hno : Keeps R F no) : Keeps R F (p >>= fun b => if b then yes else no) :=
  hp.bind fun _ => hyes.ite hno

theorem peek : Keeps R F peek := fun s => .ok (Conduct.refl F s)

theorem position : Keeps R F position := fun s => .ok (Conduct.refl F s)

theorem atEnd : Keeps R F atEnd := fun s => .ok (Conduct.refl F s)

theorem atBlockEnd : Keeps R F atBlockEnd := fun s => .ok (Conduct.refl F s)

theorem check (kinds : List Kind) : Keeps R F (check kinds) := fun s => .ok (Conduct.refl F s)

theorem advance : Keeps R F advance := fun s => .ok (Conduct.next F s)

theorem report (t : Token) (index : Nat) {fault : SyntaxFault} (h : fault.unwinds = false) :
    Keeps R F (report t index fault) :=
  fun s => .ok (Conduct.noted F s _ h)

theorem fail {fault : SyntaxFault} (h : fault.unwinds = true) :
    Keeps R F (fail fault : Reader α) :=
  fun s => .failed (Conduct.fault R s _ h)

theorem expect (kind : Kind) {fault : SyntaxFault} (h : fault.unwinds = true) :
    Keeps R F (expect kind fault) :=
  .ask (check [kind]) advance (fail h)

theorem accept (kind : Kind) : Keeps R F (accept kind) :=
  .ask (check [kind]) (.bind advance fun _ => .pure true) (.pure false)

end Keeps

section Conduct

variable [Conduct R F]

/-! ### Expressions -/

theorem separated_keeps {part : Reader α} (hpart : Keeps R F part) {tooMany : SyntaxFault}
    (h : tooMany.unwinds = false) (n count : Nat) :
    Keeps R F (separated part tooMany n count) := by
  induction n generalizing count with
  | zero => exact .stuck
  | succ n ih =>
    have hstep : Keeps R F (separatedStep part (separated part tooMany n (count + 1))) :=
      .bind hpart fun a =>
        .ask (.accept .comma) (.bind (ih _) fun as => .pure (a :: as)) (.pure [a])
    have hreport : Keeps R F (reportHere tooMany) := fun s => .ok (Conduct.noted F s _ h)
    intro s
    rw [separated_succ]
    split
    · exact Keeps.bind hreport (fun _ => hstep) s
    · exact hstep s

theorem listing_keeps {part : Reader α} (hpart : Keeps R F part) {tooMany : SyntaxFault}
    (h : tooMany.unwinds = false) : Keeps R F (listing part tooMany) :=
  .ask (.check _) (.pure []) (.bounded fun n => separated_keeps hpart h n 0)

section

variable {expression unary operand : Reader Node}

theorem chainFrom_keeps (hoperand : Keeps R F operand) (kinds : List Kind)
    (build : Node → Mark → Node → Node) (n : Nat) (e : Node) :
    Keeps R F (chainFrom operand kinds build n e) := by
  induction n generalizing e with
  | zero => exact .stuck
  | succ n ih =>
    exact .ask (.check kinds) (.bind .advance fun _ => .bind hoperand fun _ => ih _) (.pure e)

theorem operands_keeps (hunary : Keeps R F unary) (levels : List Grammar.Level) :
    Keeps R F (operands levels unary) := by
  induction levels with
  | nil => exact hunary
  | cons level levels ih =>
    exact .bind ih fun e => .bounded fun n => chainFrom_keeps ih _ _ n e

theorem assignment_keeps (hexpression : Keeps R F expression) (hunary : Keeps R F unary) :
    Keeps R F (assignment expression unary) := by
  refine .bind (operands_keeps hunary Grammar.levels) fun target => ?_
  refine .ask (.check _) ?_ (.pure target)
  refine .bind .position fun index => .bind .advance fun equals => ?_
  refine .bind hexpression fun value => ?_
  split
  · exact .pure _
  · exact .bind (.report equals index rfl) fun _ => .pure target

theorem literal_keeps (value : Json) : Keeps R F (literal value) :=
  .bind .advance fun _ => .pure _

theorem primary_keeps (hexpression : Keeps R F expression) : Keeps R F (primary expression) := by
  refine .bind .peek fun t => ?_
  split
  · exact literal_keeps _
  · exact literal_keeps _
  · exact literal_keeps _
  · exact literal_keeps _
  · exact .ite (literal_keeps _) (.fail rfl)
  · exact .bind .advance fun _ => .pure _
  · refine .bind .advance fun _ => .bind hexpression fun e => ?_
    exact .bind (.expect _ rfl) fun _ => .pure _
  · exact .fail rfl
  · exact .fail rfl

theorem callsFrom_keeps (hexpression : Keeps R F expression) (n : Nat) (e : Node) :
    Keeps R F (callsFrom expression n e) := by
  induction n generalizing e with
  | zero => exact .stuck
  | succ n ih =>
    refine .ask (.accept _) (.bind (listing_keeps hexpression rfl) fun es => ?_) (.pure e)
    exact .bind (.expect _ rfl) fun _ => ih _

theorem prefixed_keeps (hexpression : Keeps R F expression) (hunary : Keeps R F unary) :
    Keeps R F (prefixed expression unary) :=
  .ask (.check _) (.bind .advance fun _ => .bind hunary fun _ => .pure _)
    (.bind (primary_keeps hexpression) fun e => .bounded fun n => callsFrom_keeps hexpression n e)

end

theorem expressions_upTo_keep (n : Nat) :
    Keeps R F (expressionUpTo n) ∧ Keeps R F (unaryUpTo n) := by
  induction n with
  | zero => exact ⟨.stuck, .stuck⟩
  | succ n ih => exact ⟨assignment_keeps ih.1 ih.2, prefixed_keeps ih.1 ih.2⟩

theorem expression_keeps : Keeps R F expression :=
  .bounded fun n => (expressions_upTo_keep n).1

/-! ### Statements without blocks -/

theorem parameter_keeps : Keeps R F parameter :=
  .bind (.expect _ rfl) fun _ => .pure _

theorem orMissing_keeps (kind : Kind) {p : Reader Node} (hp : Keeps R F p) :
    Keeps R F (orMissing kind p) :=
  .ask (.accept kind) hp (.pure _)

theorem parenthesized_keeps {before after : SyntaxFault} (hbefore : before.unwinds = true)
    (hafter : after.unwinds = true) : Keeps R F (parenthesized before after) :=
  .bind (.expect _ hbefore) fun _ => .bind expression_keeps fun _ =>
    .bind (.expect _ hafter) fun _ => .pure _

theorem variableFrom_keeps : Keeps R F variableFrom := by
  rw [variableFrom_eq]
  exact .bind (.expect _ rfl) fun _ => .bind (orMissing_keeps _ expression_keeps) fun _ =>
    .bind (.expect _ rfl) fun _ => .pure _

theorem expressionStatement_keeps : Keeps R F expressionStatement :=
  .bind expression_keeps fun _ => .bind (.expect _ rfl) fun _ => .pure _

theorem printFrom_keeps : Keeps R F printFrom :=
  .bind expression_keeps fun _ => .bind (.expect _ rfl) fun _ => .pure _

theorem forInitializer_keeps : Keeps R F forInitializer :=
  .ask (.accept _) (.pure _) (.ask (.accept _) variableFrom_keeps expressionStatement_keeps)

theorem optionalBefore_keeps (kind : Kind) : Keeps R F (optionalBefore kind) :=
  .ask (.check _) (.pure _) expression_keeps

theorem demandFunction_keeps (keyword : Token) (index : Nat) :
    Keeps R F (demandFunction keyword index) := by
  intro s
  rw [demandFunction]
  split
  · exact .ok (Conduct.noted F s _ rfl)
  · exact .ok (Conduct.refl F s)

theorem returnStatement_keeps : Keeps R F returnStatement :=
  .bind .position fun index => .bind .advance fun keyword =>
    .bind (demandFunction_keeps keyword index) fun _ =>
      .bind (optionalBefore_keeps _) fun _ => .bind (.expect _ rfl) fun _ => .pure _

theorem forClauses_keeps : Keeps R F forClauses :=
  .bind (.expect _ rfl) fun _ => .bind forInitializer_keeps fun _ =>
    .bind (optionalBefore_keeps _) fun _ => .bind (.expect _ rfl) fun _ =>
      .bind (optionalBefore_keeps _) fun _ => .bind (.expect _ rfl) fun _ => .pure _

/-- A function in front of the statements of its body. -/
def functionHead : Reader (Mark × List Mark) := do
  let name ← expect .identifier .functionName
  let _ ← expect .leftParen .parenAfterFunctionName
  let params ← listing parameter .tooManyParameters
  let _ ← expect .rightParen .parenAfterParameters
  let _ ← expect .leftBrace .braceBeforeBody
  return (name.mark, params)

theorem function_eq (declaration : Reader (Option Node)) : function declaration = do
    let head ← functionHead
    let body ← inFunction (blockBody declaration)
    return .function head.1 head.2 body := by
  simp only [functionHead, bind_assoc, pure_bind]
  rfl

theorem functionHead_keeps : Keeps R F functionHead :=
  .bind (.expect _ rfl) fun _ => .bind (.expect _ rfl) fun _ =>
    .bind (listing_keeps parameter_keeps rfl) fun _ => .bind (.expect _ rfl) fun _ =>
      .bind (.expect _ rfl) fun _ => .pure _

end Conduct

/-! ### Statements with blocks -/

section Recovery

variable [Recovery R F] {declaration : Reader (Option Node)} {statement : Reader Node}

theorem skipToBoundary_keeps (n : Nat) : Keeps R F (skipToBoundary n) := by
  induction n with
  | zero => exact .stuck
  | succ n ih =>
    have hstep : Keeps R F (advance >>= fun _ => skipToBoundary n) := .bind .advance fun _ => ih
    intro s
    rw [skipToBoundary]
    beta_reduce
    split
    · exact .ok (Conduct.refl F s)
    · exact hstep s

theorem recovering_keeps {p : Reader Node} (hp : Keeps R F p) : Keeps R F (recovering p) := by
  intro s
  rw [recovering]
  have h := hp s
  generalize p s = r at h ⊢
  cases h with
  | ok h => exact .ok h
  | @failed s' h =>
    -- The current token is passed first, and what comes then is only moving on.
    have hresume : (resume s').Keeps R F { s' with cursor := s'.cursor.next } :=
      skipToBoundary_keeps _ _
    have hpassed : R s { s' with cursor := s'.cursor.next } := Recovery.resumed h
    dsimp only
    generalize resume s' = r at hresume ⊢
    cases hresume with
    | ok h' => exact .ok (Conduct.trans F hpassed h')
    | failed h' => exact .failed (Conduct.after hpassed h')
    | stuck => exact .stuck
  | stuck => exact .stuck

theorem inFunction_keeps {p : Reader α} (hp : Keeps R F p) : Keeps R F (inFunction p) := by
  intro s
  rw [inFunction]
  have h := hp { s with depth := s.depth + 1 }
  have henter : R s { s with depth := s.depth + 1 } := Recovery.withDepth F s _
  have hleave (s' : Reading) : R s' { s' with depth := s'.depth - 1 } := Recovery.withDepth F s' _
  generalize p { s with depth := s.depth + 1 } = r at h ⊢
  cases h with
  | ok h => exact .ok (Conduct.trans F (Conduct.trans F henter h) (hleave _))
  | failed h => exact .failed (Recovery.fault_withDepth R _ (Conduct.after henter h))
  | stuck => exact .stuck

theorem declarationsUntil_keeps {stop : Reader Bool} (hstop : Keeps R F stop)
    (hdeclaration : Keeps R F declaration) (n : Nat) :
    Keeps R F (declarationsUntil stop declaration n) := by
  induction n with
  | zero => exact .stuck
  | succ n ih =>
    exact .ask hstop (.pure []) (.bind hdeclaration fun _ => .bind ih fun _ => .pure _)

theorem blockBody_keeps (hdeclaration : Keeps R F declaration) :
    Keeps R F (blockBody declaration) :=
  .bind (.bounded fun n => declarationsUntil_keeps .atBlockEnd hdeclaration n)
    fun _ => .bind (.expect _ rfl) fun _ => .pure _

theorem function_keeps (hdeclaration : Keeps R F declaration) :
    Keeps R F (function declaration) := by
  rw [function_eq]
  exact .bind functionHead_keeps fun _ =>
    .bind (inFunction_keeps (blockBody_keeps hdeclaration)) fun _ => .pure _

theorem ifFrom_keeps (hstatement : Keeps R F statement) : Keeps R F (ifFrom statement) := by
  rw [ifFrom_eq]
  exact .bind (parenthesized_keeps rfl rfl) fun _ => .bind hstatement fun _ =>
    .bind (orMissing_keeps _ hstatement) fun _ => .pure _

theorem whileFrom_keeps (hstatement : Keeps R F statement) : Keeps R F (whileFrom statement) := by
  rw [whileFrom_eq]
  exact .bind (parenthesized_keeps rfl rfl) fun _ => .bind hstatement fun _ => .pure _

theorem forFrom_keeps (hstatement : Keeps R F statement) : Keeps R F (forFrom statement) := by
  rw [forFrom_eq]
  exact .bind forClauses_keeps fun _ => .bind hstatement fun _ => .pure _

theorem statementStep_keeps (hdeclaration : Keeps R F declaration)
    (hstatement : Keeps R F statement) : Keeps R F (statementStep declaration statement) := by
  refine .bind .peek fun t => ?_
  split
  · exact .bind .advance fun _ => printFrom_keeps
  · exact .bind .advance fun _ => ifFrom_keeps hstatement
  · exact .bind .advance fun _ => whileFrom_keeps hstatement
  · exact .bind .advance fun _ => forFrom_keeps hstatement
  · exact returnStatement_keeps
  · exact .bind .advance fun _ => .bind (blockBody_keeps hdeclaration) fun _ => .pure _
  · exact expressionStatement_keeps

theorem declarationStep_keeps (hdeclaration : Keeps R F declaration)
    (hstatement : Keeps R F statement) : Keeps R F (declarationStep declaration statement) :=
  .ask (.accept _) (function_keeps hdeclaration) (.ask (.accept _) variableFrom_keeps hstatement)

theorem statements_upTo_keep (n : Nat) :
    Keeps R F (declarationUpTo n) ∧ Keeps R F (statementUpTo n) := by
  induction n with
  | zero => exact ⟨.stuck, .stuck⟩
  | succ n ih =>
    exact ⟨recovering_keeps (declarationStep_keeps ih.1 ih.2), statementStep_keeps ih.1 ih.2⟩

theorem declaration_keeps : Keeps R F LoxLang.Reader.declaration :=
  .bounded fun n => (statements_upTo_keep n).1

theorem statement_keeps : Keeps R F LoxLang.Reader.statement :=
  .bounded fun n => (statements_upTo_keep n).2

theorem declarations_keeps {stop : Reader Bool} (hstop : Keeps R F stop) :
    Keeps R F (declarations stop) :=
  .bounded fun n => declarationsUntil_keeps hstop declaration_keeps n

end Recovery

end Reader

end LoxLang
