/-
What is read as an expression is one.

Every reader of expressions is honest (`Reply.Honest`), given that the readers it is made of
are:

* `disjunction_reads` — operators between operands, at all levels;
* `listing_honest` — parts separated by commas, not too many of them;
* `callsFrom_honest`, `primary_honest`, `prefixed_reads`, `assignment_reads`;
* `expression_honest` — whole expressions.

Readers are not stuck because at least one token is passed with every two levels.  This has to
be shown of tokens that are no expression as well.
-/
import LoxLang.Proofs.Reader.Grammar
import LoxLang.Proofs.Reader.Reading

namespace LoxLang.Reader

open Grammar

variable {k : Nat} {s : Reading}

/-! ### Operators between operands -/

/-- What is read is an expression of this tier. -/
def ReadsTier (k : Nat) (tier : Tier) (p : Reader Node) : Prop :=
  p.Reads k 1 fun _ e ts _ => Expression tier ts e

/-- The current token does not end the source if it is one of some other kinds. -/
theorem current_ne_end {kinds : List Kind} (h : kinds.contains s.cursor.current.kind = true)
    (hkinds : Kind.endOfFile ∉ kinds) : s.cursor.current.kind ≠ .endOfFile := by
  intro heq
  rw [heq] at h
  exact hkinds (by simpa using h)

theorem chainFrom_honest {level : Level} {rest : List Level} {operand : Reader Node}
    (hoperand : operand.ReadsTier k (.chain rest)) (hlevel : .endOfFile ∉ level.operators)
    {n : Nat} (left : Node) (hs : EndsOnce s.rest) (hk : s.rest.length ≤ k)
    (hn : s.rest.length ≤ n) :
    (chainFrom operand level.operators level.build n left s).Honest s 0 fun e us _ =>
      ∀ ts, Expression (.chain (level :: rest)) ts left →
        Expression (.chain (level :: rest)) (ts ++ us) e := by
  -- The operand on the left grows with each operator, while the bound gets smaller.
  induction n generalizing left s with
  | zero =>
    rw [Reading.length_rest] at hn
    omega
  | succ n ih =>
    rw [chainFrom, check_bind]
    by_cases hcheck : level.operators.contains s.cursor.current.kind = true
    · rw [hcheck, if_pos rfl, advance_bind]
      refine .skip hs (current_ne_end hcheck hlevel) (l := 0) (fun hs₁ hlength₁ => ?_) (by omega)
      refine .bind hs₁ (hoperand _ hs₁ (by omega)) ?_ (j := 0) (by omega)
      intro right us s₂ hs₂ hlength₂ _ _
      refine (ih _ hs₂ (by omega) (by omega)).mono (Nat.le_refl _) ?_
      intro e vs _ he hright ts hleft
      have hop : s.cursor.current.kind ∈ level.operators := by simpa using hcheck
      have h := he _ (.operator hleft hop hright)
      simpa using h
    · rw [Bool.not_eq_true] at hcheck
      rw [hcheck, if_neg Bool.false_ne_true]
      refine .pure fun ts hleft => ?_
      rw [List.append_nil]
      exact hleft

theorem chain_reads {level : Level} {rest : List Level} {operand : Reader Node}
    (hoperand : operand.ReadsTier k (.chain rest)) (hlevel : .endOfFile ∉ level.operators) :
    (chain operand level.operators level.build).ReadsTier k (.chain (level :: rest)) := by
  intro s hs hk
  refine .bind hs (hoperand s hs hk) ?_ (j := 0) (by omega)
  intro first ts s₁ hs₁ hlength₁ _ _
  rw [bounded_apply]
  refine (chainFrom_honest hoperand hlevel first hs₁ (by omega) (by omega)).mono
    (Nat.le_refl _) ?_
  intro e us _ he hfirst
  exact he ts (.tighter hfirst)

/-- Operators of some levels between operands. -/
def operands (levels : List Level) (unary : Reader Node) : Reader Node :=
  levels.foldr (fun level p => chain p level.operators level.build) unary

theorem disjunction_eq (unary : Reader Node) : disjunction unary = operands levels unary := rfl

theorem operands_reads {unary : Reader Node} (hunary : unary.ReadsTier k .unary)
    (ls : List Level) (hls : ∀ level ∈ ls, Kind.endOfFile ∉ level.operators) :
    (operands ls unary).ReadsTier k (.chain ls) := by
  induction ls with
  | nil =>
    intro s hs hk
    exact (hunary s hs hk).mono (Nat.le_refl _) fun _ _ _ he => .operand he
  | cons level ls ih =>
    exact chain_reads (ih fun l hl => hls l (by simp [hl])) (hls level (by simp))

theorem disjunction_reads {unary : Reader Node} (hunary : unary.ReadsTier k .unary) :
    (disjunction unary).ReadsTier k (.chain levels) := by
  rw [disjunction_eq]
  exact operands_reads hunary levels (by decide)

/-! ### Arguments and parameters -/

/-- One part, and the rest of the parts if there is a comma. -/
def separatedStep {α : Type} (part : Reader α) (rest : Reader (List α)) : Reader (List α) := do
  let first ← part
  if ← accept .comma then
    let others ← rest
    return first :: others
  else return [first]

theorem separated_succ {α : Type} (part : Reader α) (tooMany : SyntaxFault) (n count : Nat) :
    separated part tooMany (n + 1) count s =
      if maxArguments ≤ count then
        separatedStep part (separated part tooMany n (count + 1))
          (recorded s (faultHere s tooMany))
      else separatedStep part (separated part tooMany n (count + 1)) s := by
  rw [separated]
  split
  · rfl
  · rfl

/-- Parts separated by commas.  `list` says what some parts make, given what is said of each
part by `single`. -/
theorem separated_honest {α : Type} {part : Reader α} {tooMany : SyntaxFault}
    {single : α → List Token → Prop} {list : List α → List Token → Prop}
    (hpart : part.Reads k 1 fun _ a ts _ => single a ts)
    (hlast : ∀ a ts, single a ts → list [a] ts)
    (hmore : ∀ a ts comma as us, single a ts → comma.kind = .comma → list as us →
      list (a :: as) (ts ++ comma :: us))
    {n count : Nat} (hs : EndsOnce s.rest) (hk : s.rest.length ≤ k) (hn : s.rest.length ≤ n) :
    (separated part tooMany n count s).Honest s 1 fun as ts _ =>
      list as ts ∧ count + as.length ≤ maxArguments := by
  induction n generalizing s count with
  | zero =>
    rw [Reading.length_rest] at hn
    omega
  | succ n ih =>
    -- The step is taken from `s`, or from `s` with one more error.
    have hstep {s₀ : Reading} (hs₀ : EndsOnce s₀.rest) (heq : s₀.rest = s.rest) :
        (separatedStep part (separated part tooMany n (count + 1)) s₀).Honest s₀ 1
          fun as ts _ => list as ts ∧
            (count < maxArguments → count + as.length ≤ maxArguments) := by
      refine .bind hs₀ (hpart s₀ hs₀ (by rw [heq]; exact hk)) ?_ (j := 0) (by omega)
      intro first ts s₁ hs₁ hlength₁ _ hleast
      rw [heq] at hlength₁
      rw [accept_bind]
      split
      · rename_i hcomma
        have hcurrent : s₁.cursor.current.kind ≠ .endOfFile := by rw [hcomma]; decide
        refine .skip hs₁ hcurrent (l := 1) (fun hs₂ hlength₂ => ?_) (by omega)
        refine .bind hs₂ (ih hs₂ (by omega) (by omega)) ?_ (j := 0) (by omega)
        intro others us s₃ _ _ _ _
        refine .pure fun hothers hfirst => ?_
        rw [List.append_nil, List.length_cons]
        exact ⟨hmore _ _ _ _ _ hfirst hcomma hothers.1, fun _ => by omega⟩
      · refine .pure fun hfirst => ?_
        rw [List.append_nil]
        exact ⟨hlast _ _ hfirst, fun hcount => hcount⟩
    rw [separated_succ]
    split
    -- There are too many parts, but as an error is recorded nothing need be right.
    · have hrecorded : (recorded s (faultHere s tooMany)).rest = s.rest := rfl
      have hs' : EndsOnce (recorded s (faultHere s tooMany)).rest := hs
      exact .recorded _ ((hstep hs' hrecorded).mono (Nat.le_refl _) fun _ _ _ _ => trivial)
    · rename_i hcount
      refine (hstep hs rfl).mono (Nat.le_refl _) fun as ts _ has => ?_
      exact ⟨has.1, has.2 (Nat.lt_of_not_le hcount)⟩

theorem listing_honest {α : Type} {part : Reader α} {tooMany : SyntaxFault}
    {single : α → List Token → Prop} (list : List α → List Token → Prop)
    (hpart : part.Reads k 1 fun _ a ts _ => single a ts)
    (hlast : ∀ a ts, single a ts → list [a] ts)
    (hmore : ∀ a ts comma as us, single a ts → comma.kind = .comma → list as us →
      list (a :: as) (ts ++ comma :: us)) (hs : EndsOnce s.rest) (hk : s.rest.length ≤ k) :
    (listing part tooMany s).Honest s 0 fun as ts _ =>
      (as = [] ∧ ts = []) ∨ list as ts ∧ as.length ≤ maxArguments := by
  rw [listing, check_bind]
  split
  · exact .pure (.inl ⟨rfl, rfl⟩)
  · rw [bounded_apply]
    refine (separated_honest hpart hlast hmore hs hk (by omega)).mono (by omega) ?_
    intro as ts _ has
    exact .inr ⟨has.1, by omega⟩

/-! ### Calls -/

/-- The arguments of a call, or none, as they are read. -/
theorem arguments_honest {expression : Reader Node} (h : expression.ReadsTier k .expression)
    (hs : EndsOnce s.rest) (hk : s.rest.length ≤ k) :
    (listing expression .tooManyArguments s).Honest s 0 fun es ts _ =>
      (es = [] ∧ ts = []) ∨ Expression .arguments ts (.many es) ∧ es.length ≤ maxArguments := by
  refine listing_honest (fun es ts => Expression .arguments ts (.many es)) h ?_ ?_ hs hk
  · exact fun _ _ he => .lastArgument he
  · exact fun _ _ _ _ _ he hcomma hes => .argument he hcomma hes

theorem callsFrom_honest {expression : Reader Node} (h : expression.ReadsTier k .expression)
    {n : Nat} (callee : Node) (hs : EndsOnce s.rest) (hk : s.rest.length ≤ k + 1)
    (hn : s.rest.length ≤ n) :
    (callsFrom expression n callee s).Honest s 0 fun e us _ =>
      ∀ ts, Expression .call ts callee → Expression .call (ts ++ us) e := by
  induction n generalizing callee s with
  | zero =>
    rw [Reading.length_rest] at hn
    omega
  | succ n ih =>
    rw [callsFrom, accept_bind]
    split
    · rename_i hleft
      have hcurrent : s.cursor.current.kind ≠ .endOfFile := by rw [hleft]; decide
      rw [if_pos rfl]
      refine .skip hs hcurrent (l := 0) (fun hs₁ hlength₁ => ?_) (by omega)
      refine .bind hs₁ (arguments_honest h hs₁ (by omega)) ?_ (j := 0) (by omega)
      intro es us s₂ hs₂ hlength₂ _ _
      refine .expect hs₂ (by decide) (l := 0) (fun hright hs₃ hlength₃ => ?_) (by omega)
      refine (ih _ hs₃ (by omega) (by omega)).mono (Nat.le_refl _) ?_
      intro e vs _ he hes ts hcallee
      -- Without arguments and with some, these are two rules of the grammar.
      obtain ⟨rfl, rfl⟩ | ⟨hes, hcount⟩ := hes
      · have hcall := he _ (.callWithout hcallee hleft hright)
        simpa using hcall
      · have hcall := he _ (.callWith hcallee hleft hes hcount hright)
        simpa using hcall
    · refine .pure fun ts hcallee => ?_
      rw [List.append_nil]
      exact hcallee

/-! ### Expressions -/

theorem literal_honest {j : Json} (hs : EndsOnce s.rest)
    (hj : literal? s.cursor.current = some j) :
    (literal j s).Honest s 1 fun e ts _ => Expression .primary ts e := by
  have hcurrent : s.cursor.current.kind ≠ .endOfFile := by
    intro heq
    rw [literal?, heq] at hj
    cases hj
  rw [literal, advance_bind]
  refine .skip hs hcurrent (l := 0) (fun _ _ => ?_) (by omega)
  exact .pure (.literal hj)

theorem primary_honest {expression : Reader Node} (h : expression.ReadsTier k .expression)
    (hs : EndsOnce s.rest) (hk : s.rest.length ≤ k + 1) :
    (primary expression s).Honest s 1 fun e ts _ => Expression .primary ts e := by
  rw [primary, peek_bind]
  cases hkind : s.cursor.current.kind
  case falseWord => exact literal_honest hs (by rw [literal?, hkind])
  case trueWord => exact literal_honest hs (by rw [literal?, hkind])
  case nilWord => exact literal_honest hs (by rw [literal?, hkind])
  case number => exact literal_honest hs (by rw [literal?, hkind])
  case string =>
    dsimp only
    split
    · rename_i hterminated
      exact literal_honest hs (by simp [literal?, hkind, hterminated])
    · exact .failed _
  case identifier =>
    refine .skip hs (by rw [hkind]; decide) (l := 0) (fun _ _ => ?_) (by omega)
    exact .pure (.reference hkind)
  case leftParen =>
    refine .skip hs (by rw [hkind]; decide) (l := 1) (fun hs₁ hlength₁ => ?_) (by omega)
    refine .bind hs₁ (h _ hs₁ (by omega)) ?_ (j := 1) (by omega)
    intro e ts s₂ hs₂ _ _ _
    refine .expect hs₂ (by decide) (l := 0) (fun hright _ _ => ?_) (by omega)
    exact .pure fun he => .grouping hkind he hright
  all_goals exact .failed _

theorem called_honest {expression : Reader Node} (h : expression.ReadsTier k .expression)
    (hs : EndsOnce s.rest) (hk : s.rest.length ≤ k + 1) :
    (called expression s).Honest s 1 fun e ts _ => Expression .call ts e := by
  refine .bind hs (primary_honest h hs hk) ?_ (j := 0) (by omega)
  intro callee ts s₁ hs₁ hlength₁ _ _
  rw [bounded_apply]
  refine (callsFrom_honest h callee hs₁ (by omega) (by omega)).mono (Nat.le_refl _) ?_
  intro e us _ he hcallee
  exact he ts (.uncalled hcallee)

theorem prefixed_reads {expression unary : Reader Node}
    (h : expression.ReadsTier k .expression) (hunary : unary.ReadsTier k .unary) :
    (prefixed expression unary).ReadsTier (k + 1) .unary := by
  intro s hs hk
  rw [prefixed, check_bind]
  split
  · rename_i hcheck
    rw [advance_bind]
    refine .skip hs (current_ne_end hcheck (by decide)) (l := 1) (fun hs₁ hlength₁ => ?_)
      (by omega)
    refine .bind hs₁ (hunary _ hs₁ (by omega)) ?_ (j := 0) (by omega)
    intro e ts s₂ _ _ _ _
    refine .pure fun he => ?_
    rw [List.append_nil]
    exact .prefixed (by simpa using hcheck) he
  · exact (called_honest h hs hk).mono (Nat.le_refl _) fun _ _ _ he => .called he

theorem assignment_reads {expression unary : Reader Node}
    (h : expression.ReadsTier k .expression) (hunary : unary.ReadsTier (k + 1) .unary) :
    (assignment expression unary).ReadsTier (k + 1) .expression := by
  intro s hs hk
  refine .bind hs (disjunction_reads hunary s hs hk) ?_ (j := 0) (by omega)
  intro target ts s₁ hs₁ hlength₁ _ _
  rw [check_bind]
  split
  · rename_i hcheck
    rw [position_bind, advance_bind]
    refine .skip hs₁ (current_ne_end hcheck (by decide)) (l := 1) (fun hs₂ hlength₂ => ?_)
      (by omega)
    refine .bind hs₂ (h _ hs₂ (by omega)) ?_ (j := 0) (by omega)
    intro value us s₃ _ _ _ _
    have hequal : s₁.cursor.current.kind = .equal := by simpa using hcheck
    split
    · refine .pure fun hvalue htarget => ?_
      -- An expression whose tree is a name is nothing but this name.
      obtain ⟨name, rfl, hname, rfl⟩ := htarget.eq_reference
      rw [List.append_nil]
      exact .assignment hname hequal hvalue
    · rw [report_bind]
      exact .recorded _ (.pure trivial)
  · refine .pure fun htarget => ?_
    rw [List.append_nil]
    exact .disjunction htarget

/-- Expressions and operands, with enough levels for the tokens that are left. -/
theorem upTo_reads (n : Nat) :
    (∀ k, 2 * k ≤ n → ReadsTier k .expression (expressionUpTo n)) ∧
      ∀ k, 2 * k ≤ n + 1 → ReadsTier k .unary (unaryUpTo n) := by
  induction n with
  | zero =>
    constructor
    · intro k hk
      obtain rfl : k = 0 := by omega
      exact Reads.zero
    · intro k hk
      obtain rfl : k = 0 := by omega
      exact Reads.zero
  | succ n ih =>
    -- An expression passes on to operands at the same token, and these to expressions after it.
    constructor
    · intro k hk
      cases k with
      | zero => exact Reads.zero
      | succ k => exact assignment_reads (ih.1 k (by omega)) (ih.2 (k + 1) (by omega))
    · intro k hk
      cases k with
      | zero => exact Reads.zero
      | succ k => exact prefixed_reads (ih.1 k (by omega)) (ih.2 k (by omega))

/-- What is read as an expression is one. -/
theorem expression_honest (hs : EndsOnce s.rest) :
    (expression s).Honest s 1 fun e ts _ => Expression .expression ts e := by
  rw [expression_apply]
  exact (upTo_reads _).1 _ (Nat.le_refl _) s hs (Nat.le_refl _)

end LoxLang.Reader
