/-
Loops without bounds.

The loops inside expressions are read with a bound that is found from the tokens that are left.
Where the tokens end as those of a source text do, a larger bound changes nothing and none is
reached, so each of these loops is one turn and the loop again:

* `chained_eq` — the operators of a level after an operand;
* `calls_eq` — the calls of a callee;
* `parts_eq` — parts separated by commas.
-/
import LoxLang.Proofs.Reader.Progress

namespace LoxLang.Reader

open Grammar Reading

variable {s : Reading}

/-! ### Operators between operands -/

/-- The operators of a level after an operand. -/
def chained (level : Level) (ls : List Level) (left : Node) : Reader Node :=
  bounded fun n => chainFrom (operands ls unary) level.operators level.build n left

theorem unary_below : Below Ends unary unary :=
  .bounded fun n => (expressions_upTo_below (Nat.le_refl n)).2

theorem chainFrom_mono (level : Level) (ls : List Level) {m n : Nat} (hmn : m ≤ n) (left : Node) :
    Below Ends (chainFrom (operands ls unary) level.operators level.build m left)
      (chainFrom (operands ls unary) level.operators level.build n left) := by
  induction m generalizing n left with
  | zero => exact .stuck
  | succ m ih =>
    obtain ⟨n, rfl⟩ : ∃ i, n = i + 1 := ⟨n - 1, by omega⟩
    exact .ask (.check _) (.bind .advance fun _ => .bind (operands_below unary_below ls) fun _ =>
      ih (Nat.le_of_succ_le_succ hmn) _) (.pure left)

/-- Neither the end of the source nor a semicolon is an operator. -/
theorem not_mem_operators {level : Level} {ls : List Level} (hls : ls <:+ levels)
    (hlevel : level ∈ ls) :
    Kind.endOfFile ∉ level.operators ∧ Kind.semicolon ∉ level.operators := by
  have hall : ∀ l ∈ levels, Kind.endOfFile ∉ l.operators ∧ Kind.semicolon ∉ l.operators := by
    decide
  exact hall _ (hls.subset hlevel)

theorem chained_ne_stuck {level : Level} {ls : List Level} (hls : level :: ls <:+ levels)
    (left : Node) (hs : s.Ends) : chained level ls left s ≠ .stuck := by
  have hunary : unary.ReadsTier s.rest.length .unary := fun s hs _ => unary_honest hs
  have hoperand := operands_reads hunary ls fun l hl =>
    (not_mem_operators hls (List.mem_cons_of_mem _ hl)).1
  rw [chained, bounded_apply]
  exact (chainFrom_honest hoperand (not_mem_operators hls List.mem_cons_self).1 left hs
    (Nat.le_refl _) (by omega)).ne_stuck

/-- After an operand comes an operator of the level, or the chain ends. -/
theorem chained_eq {level : Level} {ls : List Level} (hls : level :: ls <:+ levels) (left : Node)
    (hs : s.Ends) :
    chained level ls left s = (check level.operators >>= fun b =>
      if b then do
        let operator ← advance
        let right ← operands ls unary
        chained level ls (level.build left operator.mark right)
      else pure left) s :=
  bounded_eq hs (chained_ne_stuck hls left hs) fun _ =>
    .ask (.check _) (.bind .advance fun _ => .bind (operands_below unary_below ls) fun _ =>
      upTo_below_bounded (fun _ _ hmn => chainFrom_mono level ls hmn _)
        (fun _ hs => chained_ne_stuck hls _ hs) _) (.pure left)

/-! ### Calls -/

/-- The calls of a callee. -/
def calls (callee : Node) : Reader Node :=
  bounded fun n => callsFrom expression n callee

theorem called_eq : called expression = primary expression >>= calls := rfl

theorem callsFrom_mono {m n : Nat} (hmn : m ≤ n) (callee : Node) :
    Below Ends (callsFrom expression m callee) (callsFrom expression n callee) := by
  induction m generalizing n callee with
  | zero => exact .stuck
  | succ m ih =>
    obtain ⟨n, rfl⟩ : ∃ i, n = i + 1 := ⟨n - 1, by omega⟩
    exact .ask (.accept _) (.bind (listing_below expression_below _) fun _ =>
      .bind (.expect _ _) fun _ => ih (Nat.le_of_succ_le_succ hmn) _) (.pure callee)

theorem calls_ne_stuck (callee : Node) (hs : s.Ends) : calls callee s ≠ .stuck := by
  have hexpression : expression.ReadsTier s.rest.length .expression :=
    fun s hs _ => expression_honest hs
  rw [calls, bounded_apply]
  exact (callsFrom_honest hexpression callee hs (by omega) (by omega)).ne_stuck

/-- A callee is called with the arguments in parentheses, or not called any more. -/
theorem calls_eq (callee : Node) (hs : s.Ends) :
    calls callee s = (accept .leftParen >>= fun b =>
      if b then do
        let arguments ← listing expression .tooManyArguments
        let paren ← expect .rightParen .parenAfterArguments
        calls (.call callee paren.mark arguments)
      else pure callee) s :=
  bounded_eq hs (calls_ne_stuck callee hs) fun _ =>
    .ask (.accept _) (.bind (listing_below expression_below _) fun _ =>
      .bind (.expect _ _) fun _ => upTo_below_bounded (fun _ _ hmn => callsFrom_mono hmn _)
        (fun _ hs => calls_ne_stuck _ hs) _) (.pure callee)

/-! ### Parts separated by commas -/

section

variable {α : Type} {part : Reader α} {tooMany : SyntaxFault}

/-- Parts separated by commas, after so many others. -/
def parts (part : Reader α) (tooMany : SyntaxFault) (count : Nat) : Reader (List α) :=
  bounded fun n => separated part tooMany n count

/-- One part after so many others, and the rest of the parts if there is a comma. -/
def partStep (part : Reader α) (tooMany : SyntaxFault) (count : Nat) (rest : Reader (List α)) :
    Reader (List α) := fun s =>
  if maxArguments ≤ count then separatedStep part rest (recorded s (faultHere s tooMany))
  else separatedStep part rest s

theorem separated_eq_partStep (n count : Nat) :
    separated part tooMany (n + 1) count
      = partStep part tooMany count (separated part tooMany n (count + 1)) :=
  funext fun _ => separated_succ part tooMany n count

theorem partStep_below (hpart : Below Ends part part) {rest rest' : Reader (List α)}
    (hrest : Below Ends rest rest') (count : Nat) :
    Below Ends (partStep part tooMany count rest) (partStep part tooMany count rest') := by
  have hstep : Below Ends (separatedStep part rest) (separatedStep part rest') :=
    .bind hpart fun a => .ask (.accept .comma) (.bind hrest fun as => .pure (a :: as)) (.pure [a])
  intro s hs
  rw [partStep, partStep]
  split
  · exact hstep _ (Stable.recorded _ hs)
  · exact hstep s hs

theorem separated_mono (hpart : Below Ends part part) {m n : Nat} (hmn : m ≤ n) (count : Nat) :
    Below Ends (separated part tooMany m count) (separated part tooMany n count) := by
  induction m generalizing n count with
  | zero => exact .stuck
  | succ m ih =>
    obtain ⟨n, rfl⟩ : ∃ i, n = i + 1 := ⟨n - 1, by omega⟩
    rw [separated_eq_partStep, separated_eq_partStep]
    exact partStep_below hpart (ih (Nat.le_of_succ_le_succ hmn) _) count

variable {single : Nat → α → List Token → Token → Prop}

theorem parts_ne_stuck (hpart : ∀ k, part.Reads k 1 single) (count : Nat) (hs : s.Ends) :
    parts part tooMany count s ≠ .stuck := by
  have hread : part.Reads s.rest.length 1 fun _ _ _ _ => True :=
    fun s hs hk => (hpart _ s hs hk).mono (Nat.le_refl _) fun _ _ _ _ => trivial
  have hhonest : (separated part tooMany (2 * s.rest.length) count s).Honest s 1
      fun as _ _ => True ∧ count + as.length ≤ maxArguments :=
    separated_honest hread (fun _ _ _ => trivial) (fun _ _ _ _ _ _ _ _ => trivial) hs
      (Nat.le_refl _) (by omega)
  rw [parts, bounded_apply]
  exact hhonest.ne_stuck

/-- Some parts are one part, and if there is a comma the others. -/
theorem parts_eq (hpart : ∀ k, part.Reads k 1 single) (hbelow : Below Ends part part)
    (count : Nat) (hs : s.Ends) :
    parts part tooMany count s
      = partStep part tooMany count (parts part tooMany (count + 1)) s :=
  bounded_eq hs (parts_ne_stuck hpart count hs) fun n => by
    rw [separated_eq_partStep]
    exact partStep_below hbelow (upTo_below_bounded (fun _ _ hmn => separated_mono hbelow hmn _)
      (fun _ hs => parts_ne_stuck hpart _ hs) n) count

end

/-- The arguments of a call, after so many others. -/
theorem arguments_eq (count : Nat) (hs : s.Ends) :
    parts expression .tooManyArguments count s = partStep expression .tooManyArguments count
      (parts expression .tooManyArguments (count + 1)) s := by
  have hread (k : Nat) : expression.ReadsTier k .expression := fun _ hs _ => expression_honest hs
  exact parts_eq hread expression_below count hs

/-- The parameters of a function, after so many others. -/
theorem parameters_eq (count : Nat) (hs : s.Ends) :
    parts parameter .tooManyParameters count s = partStep parameter .tooManyParameters count
      (parts parameter .tooManyParameters (count + 1)) s :=
  parts_eq (fun _ => parameter_reads) parameter_below count hs

end LoxLang.Reader
