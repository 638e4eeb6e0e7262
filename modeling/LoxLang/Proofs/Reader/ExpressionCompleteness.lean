/-
Every expression is read.

If some tokens are an expression, and the next one does not go on with it, then the readers of
expressions pass just these tokens, record no error, and find the tree of the expression.  The
proof is by induction on the derivation: `Reader.Understood` says for each tier what is proved
of the reader of that tier, and there is one lemma for each rule of the grammar.

A reader that groups to the left has not read `a + b` when it begins with `+ c`; it goes on
from there.  So for the tiers that refer to themselves on the left it is said where the reader
stands after these tokens, rather than that it is done.
-/
import LoxLang.Proofs.Reader.ExpressionSoundness
import Mathlib.Data.List.Infix

namespace LoxLang

/-! ### The tokens ahead -/

/-- These tokens lie ahead, and then this one. -/
def Reading.Sees (s : Reading) (ts : List Token) (next : Token) : Prop :=
  EndsOnce s.rest ∧ ∃ more, s.rest = ts ++ next :: more

namespace Reading

variable {s : Reading} {ts us : List Token} {t u next : Token}

theorem rest_skip (hs : EndsOnce s.rest) (hrest : s.rest = ts ++ us) (hus : us ≠ []) :
    (s.skip ts.length).rest = us := by
  induction ts generalizing s with
  | nil => exact hrest
  | cons t ts ih =>
    have hends := hs
    rw [hrest] at hends
    have ht : s.cursor.current = t := by
      rw [rest] at hrest
      injection hrest
    have hcurrent : s.cursor.current.kind ≠ .endOfFile := by
      rw [ht]
      exact (hends.of_append hus).2 t (by simp)
    have hskip := rest_skip_one hs hcurrent
    rw [List.length_cons, Nat.add_comm, ← skip_skip]
    refine ih ((Passed.skip_one hs hcurrent).endsOnce hs) ?_
    rw [hrest, ht] at hskip
    injection hskip with _ hskip
    exact hskip.symm

namespace Sees

theorem current (h : s.Sees (t :: ts) next) : s.cursor.current = t := by
  obtain ⟨-, more, hrest⟩ := h
  rw [rest] at hrest
  injection hrest

theorem current_of_nil (h : s.Sees [] next) : s.cursor.current = next := by
  obtain ⟨-, more, hrest⟩ := h
  rw [rest] at hrest
  injection hrest

theorem left (h : s.Sees (ts ++ t :: us) next) : s.Sees ts t := by
  obtain ⟨hs, more, hrest⟩ := h
  exact ⟨hs, us ++ next :: more, by rw [hrest]; simp⟩

theorem head (h : s.Sees (t :: u :: us) next) : s.Sees [t] u := by
  have h' : s.Sees ([t] ++ u :: us) next := h
  exact h'.left

theorem split (h : s.Sees (ts ++ us) next) : ∃ t, s.Sees ts t := by
  cases us with
  | nil =>
    rw [List.append_nil] at h
    exact ⟨next, h⟩
  | cons t us => exact ⟨t, h.left⟩

theorem skip (h : s.Sees (ts ++ us) next) : (s.skip ts.length).Sees us next := by
  obtain ⟨hs, more, hrest⟩ := h
  rw [List.append_assoc] at hrest
  have hskip := rest_skip hs hrest (by simp)
  rw [hrest] at hs
  refine ⟨?_, more, hskip⟩
  rw [hskip]
  exact (hs.of_append (by simp)).1

theorem tail (h : s.Sees (t :: ts) next) : (s.skip 1).Sees ts next := by
  have h' : s.Sees ([t] ++ ts) next := h
  exact h'.skip

theorem skip_all (h : s.Sees ts next) : (s.skip ts.length).Sees [] next := by
  have h' : s.Sees (ts ++ []) next := by rwa [List.append_nil]
  exact h'.skip

theorem length (h : s.Sees ts next) :
    s.rest.length = ts.length + (s.skip ts.length).rest.length := by
  obtain ⟨hs, more, hrest⟩ := h
  rw [rest_skip hs hrest (List.cons_ne_nil _ _), hrest, List.length_append]

theorem length_tail (h : s.Sees (t :: ts) next) : s.rest.length = (s.skip 1).rest.length + 1 := by
  have hlength := h.length
  have htail := h.tail.length
  rw [skip_cons, List.length_cons] at hlength
  omega

end Sees

end Reading

namespace Reader

open Grammar Reading

variable {s : Reading} {ts us : List Token} {t op next : Token} {e f : Node} {level : Level}
  {ls : List Level}

/-! ### What is proved of each tier -/

/-- The kinds of token that go on with an operand of some levels of operators. -/
def continuing (ls : List Level) : List Kind :=
  .leftParen :: ls.flatMap (·.operators)

/-- An expression of this tier is read, or it is clear how its reader goes on after it.  The
bounds on levels are those of `upTo_reads`. -/
def Understood : Tier → List Token → Node → Prop
  | .expression, ts, e => ∀ n s next, s.Sees ts next → 2 * s.rest.length ≤ n →
    next.kind ∉ Kind.equal :: continuing levels → expressionUpTo n s = .ok e (s.skip ts.length)
  | .chain [], ts, e => ∀ n s next, s.Sees ts next → 2 * s.rest.length ≤ n + 1 →
    next.kind ≠ .leftParen → unaryUpTo n s = .ok e (s.skip ts.length)
  | .chain (level :: ls), ts, e => level :: ls <:+ levels → ∀ n s next, s.Sees ts next →
    2 * s.rest.length ≤ n + 1 → next.kind ∉ continuing ls →
      ∃ m, (s.skip ts.length).rest.length ≤ m ∧
        chain (operands ls (unaryUpTo n)) level.operators level.build s
          = chainFrom (operands ls (unaryUpTo n)) level.operators level.build m e
            (s.skip ts.length)
  | .unary, ts, e => ∀ n s next, s.Sees ts next → 2 * s.rest.length ≤ n + 1 →
    next.kind ≠ .leftParen → unaryUpTo n s = .ok e (s.skip ts.length)
  | .call, ts, e => ∀ n s next, s.Sees ts next → 2 * s.rest.length ≤ n + 2 →
    ∃ m, (s.skip ts.length).rest.length ≤ m ∧
      called (expressionUpTo n) s = callsFrom (expressionUpTo n) m e (s.skip ts.length)
  | .primary, ts, e => ∀ n s next, s.Sees ts next → 2 * s.rest.length ≤ n + 2 →
    primary (expressionUpTo n) s = .ok e (s.skip ts.length)
  | .arguments, ts, e => ∀ es, e = .many es → ∀ n m count s next, s.Sees ts next →
    2 * s.rest.length ≤ n → s.rest.length ≤ m → next.kind = .rightParen →
      count + es.length ≤ maxArguments →
        separated (expressionUpTo n) .tooManyArguments m count s = .ok es (s.skip ts.length)

/-! ### Operators between operands -/

theorem chain_of_ok {operand : Reader Node} {kinds : List Kind}
    {build : Node → Mark → Node → Node} {s' : Reading} (h : operand s = .ok e s') :
    chain operand kinds build s
      = chainFrom operand kinds build (2 * s'.rest.length) e s' := by
  rw [chain, bind_of_ok h, bounded_apply]

theorem chainFrom_of_stop {operand : Reader Node} {kinds : List Kind}
    {build : Node → Mark → Node → Node} {m : Nat} (h : s.cursor.current.kind ∉ kinds) :
    chainFrom operand kinds build (m + 1) e s = .ok e s := by
  rw [chainFrom, check_bind, if_neg (by simpa using h)]
  rfl

theorem chainFrom_of_operator {operand : Reader Node} {kinds : List Kind}
    {build : Node → Mark → Node → Node} {m : Nat} {s' : Reading}
    (h : s.cursor.current.kind ∈ kinds) (hoperand : operand (s.skip 1) = .ok f s') :
    chainFrom operand kinds build (m + 1) e s
      = chainFrom operand kinds build m (build e s.cursor.current.mark f) s' := by
  rw [chainFrom, check_bind, if_pos (by simpa using h), advance_bind, bind_of_ok hoperand]

theorem continuing_subset : continuing ls ⊆ continuing (level :: ls) := by
  intro kind hkind
  simp only [continuing, List.flatMap_cons, List.mem_cons, List.mem_append] at hkind ⊢
  rcases hkind with h | h
  · exact .inl h
  · exact .inr (.inr h)

/-- No operator is one of two levels. -/
theorem not_mem_continuing (hls : level :: ls <:+ levels) {kind : Kind}
    (hkind : kind ∈ level.operators) : kind ∉ continuing ls := by
  -- There are finitely many levels to look through.
  have hall : ∀ l ∈ levels.tails, ∀ kind ∈ (l.head?.map Level.operators).getD [],
      kind ∉ continuing l.tail := by decide
  exact hall (level :: ls) ((List.mem_tails _ _).mpr hls) kind hkind

/-- A chain of operators is read if nothing goes on with it. -/
theorem Understood.operands {n : Nat} (h : Understood (.chain ls) ts e) (hls : ls <:+ levels)
    (hsees : s.Sees ts next) (hn : 2 * s.rest.length ≤ n + 1) (hnext : next.kind ∉ continuing ls) :
    Reader.operands ls (unaryUpTo n) s = .ok e (s.skip ts.length) := by
  cases ls with
  | nil => exact h n s next hsees hn (fun heq => hnext (by simp [continuing, heq]))
  | cons level ls =>
    obtain ⟨m, hm, heq⟩ := h hls n s next hsees hn fun hmem => hnext (continuing_subset hmem)
    have hoperator : (s.skip ts.length).cursor.current.kind ∉ level.operators := by
      rw [hsees.skip_all.current_of_nil]
      intro hmem
      exact hnext (by simp [continuing, hmem])
    obtain ⟨m, rfl⟩ := exists_succ_of_le hm
    show chain (Reader.operands ls (unaryUpTo n)) level.operators level.build s = _
    rw [heq, chainFrom_of_stop hoperator]

theorem Understood.tighter (h : Understood (.chain ls) ts e) :
    Understood (.chain (level :: ls)) ts e := by
  intro hls n s next hsees hn hnext
  refine ⟨2 * (s.skip ts.length).rest.length, by omega, ?_⟩
  exact chain_of_ok (h.operands ((List.suffix_cons level ls).trans hls) hsees hn hnext)

theorem Understood.operator (hleft : Understood (.chain (level :: ls)) ts e)
    (hop : op.kind ∈ level.operators) (hright : Understood (.chain ls) us f) :
    Understood (.chain (level :: ls)) (ts ++ op :: us) (level.build e op.mark f) := by
  intro hls n s next hsees hn hnext
  -- The left side is read up to the operator, which belongs to no tighter level.
  obtain ⟨m, hm, heq⟩ := hleft hls n s op hsees.left hn (not_mem_continuing hls hop)
  have hskip := hsees.skip
  have hlength := hsees.left.length
  have htail := hskip.length_tail
  have hoperand : Reader.operands ls (unaryUpTo n) ((s.skip ts.length).skip 1)
      = .ok f (((s.skip ts.length).skip 1).skip us.length) :=
    hright.operands ((List.suffix_cons level ls).trans hls) hskip.tail (by omega) hnext
  have hcurrent : (s.skip ts.length).cursor.current = op := hskip.current
  obtain ⟨m, rfl⟩ := exists_succ_of_le hm
  have hend : s.skip (ts ++ op :: us).length = ((s.skip ts.length).skip 1).skip us.length := by
    rw [skip_append, skip_cons]
  have hlength' := hskip.tail.length
  refine ⟨m, ?_, ?_⟩
  · rw [hend]
    omega
  · rw [heq, hend, chainFrom_of_operator (by rw [hcurrent]; exact hop) hoperand, hcurrent]

/-! ### Calls -/

theorem called_of_ok {expression : Reader Node} {s' : Reading}
    (h : primary expression s = .ok e s') :
    called expression s = callsFrom expression (2 * s'.rest.length) e s' := by
  rw [called, bind_of_ok h, bounded_apply]

theorem callsFrom_of_stop {expression : Reader Node} {m : Nat}
    (h : s.cursor.current.kind ≠ .leftParen) :
    callsFrom expression (m + 1) e s = .ok e s := by
  rw [callsFrom, accept_bind, if_neg h]
  rfl

/-- One call: its arguments are read between parentheses. -/
theorem callsFrom_of_arguments {expression : Reader Node} {m : Nat} {es : List Node}
    {s' : Reading} (hleft : s.cursor.current.kind = .leftParen)
    (harguments : listing expression .tooManyArguments (s.skip 1) = .ok es s')
    (hright : s'.cursor.current.kind = .rightParen) :
    callsFrom expression (m + 1) e s
      = callsFrom expression m (.call e s'.cursor.current.mark es) (s'.skip 1) := by
  rw [callsFrom, accept_bind, if_pos hleft, if_pos rfl, bind_of_ok harguments, expect_bind,
    if_pos hright]

theorem Understood.uncalled (h : Understood .primary ts e) : Understood .call ts e := by
  intro n s next hsees hn
  exact ⟨2 * (s.skip ts.length).rest.length, by omega, called_of_ok (h n s next hsees hn)⟩

theorem prefixed_of_called {expression unary : Reader Node}
    (h : s.cursor.current.kind ∉ [Kind.bang, .minus]) :
    prefixed expression unary s = called expression s := by
  rw [prefixed, check_bind, if_neg (by simpa using h)]

theorem prefixed_of_operator {expression unary : Reader Node} {s' : Reading}
    (h : s.cursor.current.kind ∈ [Kind.bang, .minus]) (hunary : unary (s.skip 1) = .ok e s') :
    prefixed expression unary s = .ok (.unary s.cursor.current.mark e) s' := by
  rw [prefixed, check_bind, if_pos (by simpa using h), advance_bind, bind_of_ok hunary]
  rfl

theorem Understood.called (h : Understood .call ts e)
    (hstart : ∃ t rest, ts = t :: rest ∧ t.kind ∉ [Kind.bang, .minus]) :
    Understood .unary ts e := by
  intro n s next hsees hn hnext
  obtain ⟨t, rest, rfl, ht⟩ := hstart
  obtain ⟨n, rfl⟩ := exists_succ_of_levels hn
  -- One level is spent on looking for a sign, which is not there.
  obtain ⟨m, hm, heq⟩ := h n s next hsees (by omega)
  obtain ⟨m, rfl⟩ := exists_succ_of_le hm
  have hstop : (s.skip (t :: rest).length).cursor.current.kind ≠ .leftParen := by
    rw [hsees.skip_all.current_of_nil]
    exact hnext
  calc unaryUpTo (n + 1) s
      = Reader.called (expressionUpTo n) s :=
        prefixed_of_called (by rw [hsees.current]; exact ht)
    _ = callsFrom (expressionUpTo n) (m + 1) e (s.skip (t :: rest).length) := heq
    _ = .ok e (s.skip (t :: rest).length) := callsFrom_of_stop hstop

theorem Understood.prefixed (hop : op.kind = .bang ∨ op.kind = .minus)
    (h : Understood .unary ts e) : Understood .unary (op :: ts) (.unary op.mark e) := by
  intro n s next hsees hn hnext
  obtain ⟨n, rfl⟩ := exists_succ_of_levels hn
  have hlength := hsees.length_tail
  have hunary := h n (s.skip 1) next hsees.tail (by omega) hnext
  have hcurrent : s.cursor.current.kind ∈ [Kind.bang, .minus] := by
    rw [hsees.current]
    simpa using hop
  calc unaryUpTo (n + 1) s
      = .ok (.unary s.cursor.current.mark e) ((s.skip 1).skip ts.length) :=
        prefixed_of_operator hcurrent hunary
    _ = .ok (.unary op.mark e) (s.skip (op :: ts).length) := by
        rw [hsees.current, skip_cons]

/-! ### Parts separated by commas -/

section

variable {α : Type} {a : α} {part : Reader α} {tooMany : SyntaxFault}

theorem listing_of_none (h : s.cursor.current.kind = .rightParen) :
    listing part tooMany s = .ok [] s := by
  rw [listing, check_bind, if_pos (by simp [h])]
  rfl

theorem listing_of_separated (h : s.cursor.current.kind ≠ .rightParen) :
    listing part tooMany s = separated part tooMany (2 * s.rest.length) 0 s := by
  rw [listing, check_bind, if_neg (by simpa using h), bounded_apply]

/-- One of several parts, of which there are not too many. -/
theorem separated_of_count {m count : Nat} (hcount : count < maxArguments) :
    separated part tooMany (m + 1) count s
      = separatedStep part (separated part tooMany m (count + 1)) s := by
  rw [separated_succ, if_neg (Nat.not_le.mpr hcount)]

theorem separatedStep_of_last {rest : Reader (List α)} {s' : Reading} (hpart : part s = .ok a s')
    (hlast : s'.cursor.current.kind ≠ .comma) : separatedStep part rest s = .ok [a] s' := by
  rw [separatedStep, bind_of_ok hpart, accept_bind, if_neg hlast]
  rfl

theorem separatedStep_of_comma {rest : Reader (List α)} {as : List α} {s' s'' : Reading}
    (hpart : part s = .ok a s') (hcomma : s'.cursor.current.kind = .comma)
    (hrest : rest (s'.skip 1) = .ok as s'') : separatedStep part rest s = .ok (a :: as) s'' := by
  rw [separatedStep, bind_of_ok hpart, accept_bind, if_pos hcomma, if_pos rfl, bind_of_ok hrest]
  rfl

end

/-! ### Calls with arguments -/

/-- A call, given how its arguments are read. -/
theorem Understood.call {es : List Node} {leftParen rightParen : Token}
    (hcallee : Understood .call ts e) (hleft : leftParen.kind = .leftParen)
    (hright : rightParen.kind = .rightParen)
    (harguments : ∀ n s, s.Sees us rightParen → 2 * s.rest.length ≤ n →
      listing (expressionUpTo n) .tooManyArguments s = .ok es (s.skip us.length)) :
    Understood .call (ts ++ leftParen :: us ++ [rightParen]) (.call e rightParen.mark es) := by
  intro n s next hsees hn
  have hsees' : s.Sees (ts ++ leftParen :: (us ++ [rightParen])) next := by simpa using hsees
  -- The callee is read up to the parenthesis, the arguments between the two.
  obtain ⟨m, hm, heq⟩ := hcallee n s leftParen hsees'.left hn
  have hlength := hsees'.left.length
  have hskip := hsees'.skip
  have htail := hskip.length_tail
  have harguments' := harguments n ((s.skip ts.length).skip 1) hskip.tail.left (by omega)
  have hparen := hskip.tail.skip
  have hlength' := hskip.tail.left.length
  have htail' := hparen.length_tail
  have hend : s.skip (ts ++ leftParen :: us ++ [rightParen]).length
      = (((s.skip ts.length).skip 1).skip us.length).skip 1 := by
    rw [skip_append, skip_append, List.length_singleton, skip_cons]
  obtain ⟨m, rfl⟩ := exists_succ_of_le hm
  have hcall := callsFrom_of_arguments (m := m) (e := e) (hskip.current ▸ hleft) harguments'
    (hparen.current ▸ hright)
  rw [hparen.current] at hcall
  refine ⟨m, ?_, ?_⟩
  · rw [hend]
    omega
  · rw [hend]
    exact heq.trans hcall

theorem Understood.callWithout {leftParen rightParen : Token} (hcallee : Understood .call ts e)
    (hleft : leftParen.kind = .leftParen) (hright : rightParen.kind = .rightParen) :
    Understood .call (ts ++ [leftParen, rightParen]) (.call e rightParen.mark []) := by
  have hlisting (n : Nat) (s : Reading) (hsees : s.Sees [] rightParen)
      (_ : 2 * s.rest.length ≤ n) :
      listing (expressionUpTo n) .tooManyArguments s = .ok [] (s.skip ([] : List Token).length) :=
    listing_of_none (by rw [hsees.current_of_nil, hright])
  simpa using Understood.call hcallee hleft hright hlisting

theorem Understood.callWith {leftParen rightParen : Token} {es : List Node}
    (hcallee : Understood .call ts e) (hleft : leftParen.kind = .leftParen)
    (hus : Expression .arguments us (.many es)) (harguments : Understood .arguments us (.many es))
    (hcount : es.length ≤ maxArguments) (hright : rightParen.kind = .rightParen) :
    Understood .call (ts ++ leftParen :: us ++ [rightParen]) (.call e rightParen.mark es) := by
  refine Understood.call hcallee hleft hright ?_
  intro n s hsees hn
  obtain ⟨t, rest, rfl, ht, -⟩ := hus.first
  have hcurrent : s.cursor.current.kind ≠ .rightParen := by
    rw [hsees.current]
    intro heq
    rw [heq] at ht
    exact absurd ht (by decide)
  have hread := harguments es rfl n (2 * s.rest.length) 0 s rightParen hsees hn (by omega) hright
    (by omega)
  exact (listing_of_separated hcurrent).trans hread

theorem Understood.lastArgument (h : Understood .expression ts e) :
    Understood .arguments ts (.many [e]) := by
  intro es hes n m count s next hsees hn hm hnext hcount
  obtain rfl : [e] = es := by
    injection hes
  rw [List.length_singleton] at hcount
  have hstop : next.kind ∉ Kind.equal :: continuing levels := by
    rw [hnext]
    decide
  have hlast : (s.skip ts.length).cursor.current.kind ≠ .comma := by
    rw [hsees.skip_all.current_of_nil, hnext]
    decide
  obtain ⟨m, rfl⟩ := exists_succ_of_le hm
  exact (separated_of_count (by omega)).trans
    (separatedStep_of_last (h n s next hsees hn hstop) hlast)

theorem Understood.argument {comma : Token} {fs : List Node} (h : Understood .expression ts e)
    (hcomma : comma.kind = .comma) (hrest : Understood .arguments us (.many fs)) :
    Understood .arguments (ts ++ comma :: us) (.many (e :: fs)) := by
  intro es hes n m count s next hsees hn hm hnext hcount
  obtain rfl : e :: fs = es := by
    injection hes
  rw [List.length_cons] at hcount
  have hstop : comma.kind ∉ Kind.equal :: continuing levels := by
    rw [hcomma]
    decide
  have hlength := hsees.left.length
  have hskip := hsees.skip
  have htail := hskip.length_tail
  have hfirst := h n s comma hsees.left hn hstop
  obtain ⟨m, rfl⟩ := exists_succ_of_le hm
  have hothers := hrest fs rfl n m (count + 1) _ next hskip.tail (by omega) (by omega) hnext
    (by omega)
  have hend : s.skip (ts ++ comma :: us).length = ((s.skip ts.length).skip 1).skip us.length := by
    rw [skip_append, skip_cons]
  rw [hend]
  exact (separated_of_count (by omega)).trans
    (separatedStep_of_comma hfirst (by rw [hskip.current, hcomma]) hothers)

/-! ### Expressions without operators -/

theorem primary_of_literal {expression : Reader Node} {j : Json}
    (h : literal? s.cursor.current = some j) :
    primary expression s = .ok (.literal j) (s.skip 1) := by
  rw [primary, peek_bind]
  rw [literal?] at h
  cases hkind : s.cursor.current.kind
  all_goals
    rw [hkind] at h
    dsimp only at h ⊢
  case string =>
    split at h
    · rename_i hterminated
      rw [if_pos hterminated]
      cases h
      rfl
    · cases h
  all_goals first
    | cases h
      rfl
    | cases h

theorem primary_of_name {expression : Reader Node} (h : s.cursor.current.kind = .identifier) :
    primary expression s = .ok (.reference s.cursor.current.mark) (s.skip 1) := by
  rw [primary, peek_bind, h]
  rfl

theorem primary_of_grouping {expression : Reader Node} {s' : Reading}
    (hleft : s.cursor.current.kind = .leftParen) (h : expression (s.skip 1) = .ok e s')
    (hright : s'.cursor.current.kind = .rightParen) :
    primary expression s = .ok (.grouping e) (s'.skip 1) := by
  rw [primary, peek_bind, hleft]
  dsimp only
  rw [advance_bind, bind_of_ok h, expect_bind, if_pos hright]
  rfl

theorem Understood.literal {t : Token} {j : Json} (h : literal? t = some j) :
    Understood .primary [t] (.literal j) := by
  intro n s next hsees hn
  exact primary_of_literal (by rw [hsees.current, h])

theorem Understood.reference {name : Token} (hname : name.kind = .identifier) :
    Understood .primary [name] (.reference name.mark) := by
  intro n s next hsees hn
  have hcurrent : s.cursor.current.kind = .identifier := by rw [hsees.current, hname]
  rw [← hsees.current]
  exact primary_of_name hcurrent

theorem Understood.grouping {leftParen rightParen : Token} (hleft : leftParen.kind = .leftParen)
    (h : Understood .expression ts e) (hright : rightParen.kind = .rightParen) :
    Understood .primary (leftParen :: ts ++ [rightParen]) (.grouping e) := by
  intro n s next hsees hn
  have hsees' : s.Sees (leftParen :: (ts ++ [rightParen])) next := by simpa using hsees
  have hlength := hsees'.length_tail
  have hstop : rightParen.kind ∉ Kind.equal :: continuing levels := by
    rw [hright]
    decide
  have hinner := h n (s.skip 1) rightParen hsees'.tail.left (by omega) hstop
  have hparen := hsees'.tail.skip
  have hend : s.skip (leftParen :: ts ++ [rightParen]).length
      = ((s.skip 1).skip ts.length).skip 1 := by
    rw [skip_append, List.length_singleton, skip_cons]
  rw [hend]
  exact primary_of_grouping (hsees'.current ▸ hleft) hinner (hparen.current ▸ hright)

/-! ### Assignments -/

theorem assignment_of_name {expression unary : Reader Node} {name : Mark} {s' s'' : Reading}
    (htarget : disjunction unary s = .ok (.reference name) s')
    (hequal : s'.cursor.current.kind = .equal) (hvalue : expression (s'.skip 1) = .ok e s'') :
    assignment expression unary s = .ok (.assign name e) s'' := by
  rw [assignment, bind_of_ok htarget, check_bind, if_pos (by simp [hequal]), position_bind,
    advance_bind, bind_of_ok hvalue]
  rfl

theorem assignment_of_other {expression unary : Reader Node} {s' : Reading}
    (h : disjunction unary s = .ok e s') (hequal : s'.cursor.current.kind ≠ .equal) :
    assignment expression unary s = .ok e s' := by
  rw [assignment, bind_of_ok h, check_bind, if_neg (by simpa using hequal)]
  rfl

/-- A name is read at every level of operators. -/
theorem Understood.name {name : Token} (hname : name.kind = .identifier) (ls : List Level) :
    Understood (.chain ls) [name] (.reference name.mark) := by
  induction ls with
  | nil =>
    refine Understood.called (.uncalled (.reference hname)) ⟨name, [], rfl, ?_⟩
    rw [hname]
    decide
  | cons level ls ih => exact ih.tighter

theorem Understood.assignment {name equal : Token} (hname : name.kind = .identifier)
    (hequal : equal.kind = .equal) (h : Understood .expression ts e) :
    Understood .expression (name :: equal :: ts) (.assign name.mark e) := by
  intro n s next hsees hn hnext
  obtain ⟨n, rfl⟩ := exists_succ_of_levels (Nat.le_succ_of_le hn)
  have hlength := hsees.length_tail
  have hlength' := hsees.tail.length_tail
  have hstop : equal.kind ∉ continuing levels := by
    rw [hequal]
    decide
  -- The name is read as an operand first, and turned into a target at the equal sign.
  have htarget : disjunction (unaryUpTo n) s = .ok (.reference name.mark) (s.skip 1) :=
    (Understood.name hname levels).operands (List.suffix_refl _) hsees.head hn hstop
  have hvalue := h n ((s.skip 1).skip 1) next hsees.tail.tail (by omega) hnext
  rw [skip_cons, skip_cons]
  exact assignment_of_name htarget (hsees.tail.current ▸ hequal) hvalue

theorem Understood.disjunction (h : Understood (.chain levels) ts e) :
    Understood .expression ts e := by
  intro n s next hsees hn hnext
  obtain ⟨n, rfl⟩ := exists_succ_of_levels (Nat.le_succ_of_le hn)
  have hread : Reader.disjunction (unaryUpTo n) s = .ok e (s.skip ts.length) :=
    h.operands (List.suffix_refl _) hsees hn fun hmem => hnext (List.mem_cons_of_mem _ hmem)
  refine assignment_of_other hread ?_
  rw [hsees.skip_all.current_of_nil]
  intro heq
  exact hnext (by simp [heq])

/-- Every expression is understood. -/
theorem understood {tier : Tier} (h : Expression tier ts e) : Understood tier ts e := by
  induction h with
  | assignment hname hequal _ ih => exact .assignment hname hequal ih
  | disjunction _ ih => exact .disjunction ih
  | operator _ hop _ ihl ihr => exact .operator ihl hop ihr
  | tighter _ ih => exact .tighter ih
  | operand _ ih => exact ih
  | prefixed hop _ ih => exact .prefixed hop ih
  | called h ih =>
    obtain ⟨t, rest, rfl, -, ht⟩ := h.first
    refine .called ih ⟨t, rest, rfl, fun hmem => ?_⟩
    have hdisjoint : ∀ kind ∈ [Kind.bang, .minus], kind ∉ primaryStarts := by decide
    exact hdisjoint _ hmem (ht (.inl rfl))
  | callWithout _ hleft hright ih => exact .callWithout ih hleft hright
  | callWith _ hleft harguments hcount hright ihc iha =>
    exact .callWith ihc hleft harguments iha hcount hright
  | uncalled _ ih => exact .uncalled ih
  | literal hj => exact .literal hj
  | reference hname => exact .reference hname
  | grouping hleft _ hright ih => exact .grouping hleft ih hright
  | lastArgument _ ih => exact .lastArgument ih
  | argument _ hcomma _ ih ihr => exact .argument ih hcomma ihr

/-- An expression is read if nothing goes on with it. -/
theorem expression_of_derived (h : Expression .expression ts e) (hsees : s.Sees ts next)
    (hnext : next.kind ∉ Kind.equal :: continuing levels) :
    expression s = .ok e (s.skip ts.length) := by
  rw [expression_apply]
  exact understood h _ s next hsees (Nat.le_refl _) hnext

end Reader

end LoxLang
