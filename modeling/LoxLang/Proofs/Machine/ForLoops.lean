/-
A `for` does what it says.

What is read as a `for` is a `while` in a block, with the increment in a block of its own after the
body.  Here is what a `for` does by a rule of its own (`ForParts.execute`), without these blocks,
except that an initializer has a scope around the loop.  The loop that stands for a `for` does just
that (`for_loops_run_directly`): the scope around the body and the increment cannot be told from
the one outside it, because nothing is ever declared there.

* `ForParts.round_matched`, `ForParts.rounds_matched` — one round, and all of them;
* `ForParts.execute_matched` — the whole loop, on two machines that match;
* `Machine.Matched.mirrors` — what can be told of two machines that match.
-/
import LoxLang.Proofs.Machine.HollowRuns
import LoxLang.Proofs.Reader.ExactGrammar

namespace LoxLang

open Reader

/-! ### The rule -/

/-- The parts of a `for`, of which all but the body may be missing. -/
structure ForParts where
  initializer : Node
  condition : Node
  increment : Node
  body : Node

namespace ForParts

/-- The loop that a `for` with these parts abbreviates. -/
def node (p : ForParts) : Node := forLoop p.initializer p.condition p.increment p.body

/-- The condition of that loop. -/
def test (p : ForParts) : Node :=
  if p.condition.isMissing then .literal (.bool true) else p.condition

/-- Whether there is another round.  A condition that is missing holds. -/
def holds (settings : Settings) (p : ForParts) (n : Nat) : Effect Bool :=
  if p.condition.isMissing then pure true
  else Value.isTruthy <$> evaluateUpTo settings n p.condition

/-- A round: the body is executed, and then the increment is evaluated. -/
def round (settings : Settings) (p : ForParts) (n : Nat) : Effect Unit :=
  if p.increment.isMissing then do
    let _ ← executeUpTo settings n p.body
  else do
    let _ ← executeUpTo settings (n - 1) p.body
    let _ ← evaluateUpTo settings (n - 2) p.increment

/-- The rounds of a `for`. -/
def rounds (settings : Settings) (p : ForParts) (n : Nat) : Effect Value := do
  Effect.whileTrue (p.holds settings n) (p.round settings n) n
  traceFrom 3 settings ("while on line " ++ p.test.line.shown ++ " finished")
  return .nil

/-- What a `for` does: an initializer is executed once, in a new scope in which the rounds are as
well.  Nested steps are bounded as in the loop that it abbreviates. -/
def execute (settings : Settings) (p : ForParts) : Nat → Effect Value
  | 0 => Effect.stop .exhausted
  | n + 1 =>
    if p.initializer.isMissing then p.rounds settings n
    else do
      inNewScope settings do
        let _ ← executeUpTo settings n p.initializer
        let _ ← p.rounds settings (n - 1)
      return .nil

end ForParts

/-! ### The rule and the loop -/

variable {settings : Settings} {w : upToHollow.World}

/-- An effect of which the result is not looked at on the first side. -/
theorem Effect.Related.discard {C : Correspondence} {stops : C.World → Stop → Stop → Prop}
    {α β γ : Type} {w : C.World} {x : Effect α} {y : Effect β} {c : γ}
    (h : Effect.Related C stops C.Anything w x y) :
    Effect.Related C stops C.Anything w (x >>= fun _ => Pure.pure c) y := by
  intro u hu m m' hm
  have hxy := h u hu m m' hm
  generalize hx : x m = o, y m' = o' at hxy ⊢
  cases hxy with
  | done grown machines _ =>
    rw [Effect.bind_of_done hx]
    exact .done grown machines trivial
  | stopped grown machines ends =>
    rw [Effect.bind_of_stopped hx]
    exact .stopped grown machines ends

theorem executeUpTo_evaluate (settings : Settings) (n : Nat) (e : Node) :
    executeUpTo settings n (.evaluate e) = evaluateUpTo settings (n - 1) e := by
  cases n with
  | zero => rfl
  | succ n => rfl

theorem executeUpTo_block (settings : Settings) (n : Nat) (es : List Node) :
    executeUpTo settings (n + 1) (.block es)
      = inNewScope settings (executeAll (executeUpTo settings n) es) >>= fun _ => pure .nil :=
  (Simulation.executeStep_block settings (evaluateUpTo settings n) (executeUpTo settings n) n
    es).trans (congrArg (fun x : Effect Unit => x >>= fun _ => pure Value.nil)
      (executeBlock_eq settings (executeUpTo settings n) es))

theorem executeUpTo_loop (settings : Settings) (n : Nat) (condition body : Node) :
    executeUpTo settings (n + 1) (.loop condition body) =
      Effect.whileTrue (Value.isTruthy <$> evaluateUpTo settings n condition)
          (executeUpTo settings n body >>= fun _ => pure ()) n >>= fun _ =>
        traceFrom 3 settings ("while on line " ++ condition.line.shown ++ " finished") >>=
          fun _ => pure .nil :=
  Simulation.executeStep_loop settings (evaluateUpTo settings n) (executeUpTo settings n) n
    condition body

namespace ForParts

variable (p : ForParts)

/-- The body of the loop. -/
def inner : Node :=
  if p.increment.isMissing then p.body else .block [p.body, .evaluate p.increment]

theorem node_eq : p.node = if p.initializer.isMissing then .loop p.test p.inner
    else .block [p.initializer, .loop p.test p.inner] := rfl

/-- In a scope on both sides, where the body declares nothing: a round of the loop, with a scope
around the body and the increment, and a round by the rule, without. -/
theorem round_matched (hreclaim : settings.reclaim = true) (hbody : p.body.DeclaresNothing)
    (n : Nat) :
    Effect.Related upToHollow upToHollow.Leaving upToHollow.Anything w
      (executeUpTo settings n p.inner >>= fun _ => pure ()) (p.round settings n) := by
  have body (u : upToHollow.World) (k : Nat) : Effect.Related upToHollow upToHollow.Leaving
      upToHollow.values u (executeUpTo settings k p.body) (executeUpTo settings k p.body) :=
    (hollowSimulation settings hreclaim).executeUpTo k u p.body (.inr hbody)
  have increment (u : upToHollow.World) (k : Nat) : Effect.Related upToHollow upToHollow.Leaving
      upToHollow.values u (executeUpTo settings k (.evaluate p.increment))
      (evaluateUpTo settings (k - 1) p.increment) := by
    rw [executeUpTo_evaluate]
    exact ((hollowSimulation settings hreclaim).evaluateUpTo _ u p.increment trivial).leaving
  rw [inner, round]
  split
  · exact .bind (body w n) fun _ _ _ _ _ => .pure fun _ _ => trivial
  · cases n with
    | zero =>
      -- Without a step left neither side gets beyond its first one.
      intro u _ m m' hm
      exact .stopped (.refl u) hm (.inl ⟨rfl, trivial, by simp⟩)
    | succ k =>
      have hstatements (u : upToHollow.World) : Effect.Related upToHollow upToHollow.Leaving
          upToHollow.Anything u
          (executeAll (executeUpTo settings k) [p.body, .evaluate p.increment])
          (executeUpTo settings k p.body >>= fun _ =>
            evaluateUpTo settings (k - 1) p.increment >>= fun _ => pure ()) := by
        refine .bind (body u k) fun v _ _ _ _ => .bind (increment v k) fun _ _ _ _ _ => ?_
        exact .pure fun _ _ => trivial
      have hblock := (inHollow_matched (w := w) hreclaim hstatements).discard (c := Value.nil)
      rw [← executeUpTo_block] at hblock
      exact hblock.discard

/-- The rounds of the loop, and those of the rule. -/
theorem rounds_matched (hreclaim : settings.reclaim = true) (hbody : p.body.DeclaresNothing)
    (n : Nat) :
    Effect.Related upToHollow upToHollow.Leaving upToHollow.values w
      (executeUpTo settings n (.loop p.test p.inner)) (p.rounds settings (n - 1)) := by
  have hexhausted (u : upToHollow.World) : upToHollow.Leaving u .exhausted .exhausted :=
    .inl ⟨rfl, trivial, by simp⟩
  rcases n with _ | _ | n
  · exact fun u _ _ _ hm => .stopped (.refl u) hm (hexhausted u)
  · exact fun u _ _ _ hm => .stopped (.refl u) hm (hexhausted u)
  · rw [executeUpTo_loop, rounds]
    refine .seq (.whileTrue (fun u _ => ?_) (fun u _ => p.round_matched hreclaim hbody _)
      hexhausted _) fun u _ _ _ => .seq (traceFrom_matched 3 settings _).leaving fun v _ _ _ =>
        .pure fun _ _ => .of_isScalar rfl
    rw [holds, test]
    split
    · exact .pure fun _ _ => rfl
    · have hcondition :=
        (hollowSimulation settings hreclaim).evaluateUpTo (n + 1) u p.condition trivial
      exact hcondition.leaving.map fun _ _ _ hab => Simulation.isTruthy_eq hab

/-- The loop that stands for a `for` does what the rule says. -/
theorem execute_matched (hreclaim : settings.reclaim = true) (hbody : p.body.DeclaresNothing)
    (n : Nat) :
    Effect.Related upToHollow upToHollow.Leaving upToHollow.values w
      (executeUpTo settings n p.node) (p.execute settings n) := by
  cases n with
  | zero => exact fun u _ _ _ hm => .stopped (.refl u) hm (.inl ⟨rfl, trivial, by simp⟩)
  | succ n =>
    rw [node_eq, execute]
    split
    · exact p.rounds_matched hreclaim hbody (n + 1)
    · rw [executeUpTo_block]
      refine .seq (inNewScope_matched hreclaim fun u hu => ?_) fun _ _ _ _ =>
        .pure fun _ _ => .of_isScalar rfl
      have hinitializer := (hollowSimulation settings hreclaim).executeUpTo n u p.initializer
        (.inl hu)
      refine .bind hinitializer fun v _ _ _ _ => .bind (p.rounds_matched hreclaim hbody n) ?_
      exact fun _ _ _ _ _ => .pure fun _ _ => trivial

end ForParts

/-! ### What can be told of two machines -/

/-- No program can tell these machines apart, of which the second one has twins of scopes of the
first one: the same lines have been written, twins bind the same names to the same values, where
functions are the same if they close over twins, and a name that is looked up from twins is found
in twins or nowhere. -/
structure Machine.Mirrors (twins : List Twin) (m m' : Machine) : Prop where
  oneToOne : OneToOne twins
  lines : m.SameLines m'
  nextId : m.nextId = m'.nextId
  bindings : ∀ x ∈ twins, ∃ s t, m.arena.scope x.1 = .ok s ∧ m'.arena.scope x.2 = .ok t ∧
    List.Forall₂ (SameBinding (Value.Renamed twins)) s.bindings t.bindings
  names : ∀ x ∈ twins, ∀ k,
    (m.arena.binder x.1 k = .error .unbound ∧ m'.arena.binder x.2 k = .error .unbound) ∨
      ∃ y ∈ twins, m.arena.binder x.1 k = .ok y.1 ∧ m'.arena.binder x.2 k = .ok y.2

/-- Two executions end alike. -/
inductive Outcome.Mirrors (twins : List Twin) : Outcome Value → Outcome Value → Prop where
  | done {v v' : Value} {m m' : Machine} (value : v.Renamed twins v')
      (machines : m.Mirrors twins m') : Mirrors twins (.done v m) (.done v' m')
  | returned {v v' : Value} {m m' : Machine} (value : v.Renamed twins v')
      (machines : m.Mirrors twins m') :
      Mirrors twins (.stopped (.returned v) m) (.stopped (.returned v') m')
  | stopped {why : Stop} {m m' : Machine} (noValue : ∀ v, why ≠ .returned v)
      (machines : m.Mirrors twins m') : Mirrors twins (.stopped why m) (.stopped why m')

section

variable {m m' : Machine} {v : Layout}

theorem Machine.Matched.mirrors (hm : Machine.Matched w m m') :
    m.Mirrors w.matching.twins m' where
  oneToOne := hm.arena.oneToOne
  lines := hm.lines
  nextId := hm.nextId
  bindings x hx := by
    obtain ⟨s, t, hs, ht, hst⟩ := hm.arena.twins x hx
    exact ⟨s, t, hs, ht, hst.bindings⟩
  names x hx k := by
    obtain ⟨hleft, hright⟩ := hm.coherent.twins x hx
    obtain ⟨l, hl, hnodup⟩ := hm.left.outward hleft
    obtain ⟨l', hl', hnodup'⟩ := hm.right.outward hright
    exact hm.arena.binder (.twin hx) hl hnodup hl' hnodup' k

theorem Outcome.Related.mirrors {o o' : Outcome Value}
    (h : Outcome.Related upToHollow upToHollow.Leaving upToHollow.values w o o') :
    ∃ u : Sides, w.Le u ∧ o.Mirrors u.matching.twins o' ∧ o.machine.Fits u.left ∧
      o'.machine.Fits u.right := by
  cases h with
  | @done u a b m m' grown machines ends =>
    exact ⟨u, grown, .done ends.renamed machines.mirrors, machines.left, machines.right⟩
  | @stopped u why why' m m' grown machines ends =>
    refine ⟨u, grown, ?_, machines.left, machines.right⟩
    rcases ends with ⟨rfl, -, hwhy⟩ | ⟨a, b, rfl, rfl, -, hab⟩
    · exact .stopped hwhy machines.mirrors
    · exact .returned hab.renamed machines.mirrors

/-- A machine beside itself. -/
noncomputable def Layout.beside (v : Layout) (m : Machine) : Sides :=
  ⟨v, v, .diagonal v.Anchored m.arena.slots.size⟩

theorem Machine.Fits.mem_beside (hm : m.Fits v) {h : Handle} (hh : v.Anchored h) :
    (h, h) ∈ (v.beside m).matching.twins := by
  obtain ⟨s, hs, -⟩ := hm.scope_of_anchored hh
  exact Matching.mem_twins_diagonal.mpr ⟨rfl, Arena.lt_size_of_scope hs, hh⟩

/-- A machine matches itself. -/
theorem Machine.Fits.matched_beside (hm : m.Fits v) (hv : v.Loose) :
    Machine.Matched (v.beside m) m m := by
  have hfunction {f : Function} (hf : v.shape.Pinned f.closure) :
      f.Renamed (v.beside m).matching.twins f :=
    ⟨rfl, rfl, rfl, rfl, hm.mem_beside (.inr hf)⟩
  have hvalue (a : Value) (ha : a ∈ m.arena.values) :
      a.Renamed (v.beside m).matching.twins a := by
    have hfits := hm.values a ha
    cases a with
    | function f => exact .function (hfunction (hfits f rfl).1)
    | _ => exact .same (by simp)
  exact {
    left := hm
    right := hm
    coherent := {
      loose := ⟨hv, hv⟩
      twins := fun x hx => by
        obtain ⟨heq, -, hh⟩ := Matching.mem_twins_diagonal.mp hx
        exact ⟨hh, heq ▸ hh⟩
      hollow := fun y hy => absurd hy List.not_mem_nil
      current := .twin (hm.mem_beside hm.proper.anchored_current) }
    arena := .diagonal (fun g hg => hm.scope_of_anchored hg) hvalue
    calls := List.forall₂_same.mpr fun f hf => hfunction (hm.functions f (hm.calls ▸ hf))
    nextId := rfl
    lines := ⟨rfl, rfl, rfl, rfl⟩ }

end

/-- The parts of a `for` are where they should be in the source. -/
theorem spelled_of_read {k : Nat} {s s₁ s' : Reading} {clauses : Node × Node × Node} {body : Node}
    (hclauses : forClauses s = .ok clauses s₁) (hbody : statementUpTo k s₁ = .ok body s')
    (hends : EndsOnce s.rest) (hk : 2 * s.rest.length ≤ k + 1) (herrors : s'.errors = s.errors) :
    ∃ ts us ajar, s.rest = ts ++ us ++ s'.rest ∧ Clauses ts clauses ∧
      Grammar.Statement s.depth (.statement ajar) us body := by
  have hread := forClauses_honest hends
  rw [hclauses] at hread
  obtain ⟨ts, hts, -, hclauses⟩ := hread
  have hread := (statements_upTo_reads k).2 s.rest.length hk s₁ (hts.endsOnce hends) (by
    rw [hts.length]
    omega)
  rw [hbody] at hread
  obtain ⟨us, hus, -, hbody⟩ := hread
  obtain ⟨heq, heq'⟩ := hts.errors_eq hus herrors
  obtain ⟨ajar, hbody, -⟩ := hbody heq'
  rw [hts.depth] at hbody
  refine ⟨ts, us, ajar, ?_, hclauses heq, hbody⟩
  rw [hts.rest, hus.rest, List.append_assoc]

/-- **A `for` does what it says.**  Whatever is read as a `for`, with or without an initializer, a
condition and an increment, and with any body, and whatever the state in which it is executed: the
loop that stands for it ends as the rule says that is given by `ForParts.execute`.  Both write the
same lines and give back the same values or fail for the same reason; the scopes that had been
entered or were pinned bind the same names to the same values afterwards, and names are found in
the same scopes.  The scope of the initializer is left.  And the body, wherever it is executed, adds
no name to any scope that there was, so that names are found afterwards where they were before. -/
theorem for_loops_run_directly (level maxCalls patience : Nat) {k : Nat} {s s' : Reading}
    {node : Node} (hread : forFrom (statementUpTo k) s = .ok node s') :
    let settings : Settings := ⟨level, true, maxCalls, patience⟩
    ∃ (p : ForParts) (s₁ : Reading), node = p.node ∧
      forClauses s = .ok (p.initializer, p.condition, p.increment) s₁ ∧
      statementUpTo k s₁ = .ok p.body s' ∧
      (EndsOnce s.rest → 2 * s.rest.length ≤ k + 1 → s'.errors = s.errors →
        ∃ ts us ajar, s.rest = ts ++ us ++ s'.rest ∧
          Clauses ts (p.initializer, p.condition, p.increment) ∧
          Grammar.Statement s.depth (.statement ajar) us p.body) ∧
      ∀ requests M, Reached settings requests M → ∀ n,
        (∃ twins, (∀ h, h ∈ M.frames.scopes ∨ M.machine.arena.shape.Pinned h → (h, h) ∈ twins) ∧
          Outcome.Mirrors twins (executeUpTo settings n node M.machine)
            (p.execute settings n M.machine)) ∧
        M.machine.BackIn (executeUpTo settings n node M.machine).machine ∧
        M.machine.BackIn (p.execute settings n M.machine).machine ∧
        Moment.Keeps settings ⟨n, true, p.body, M.frames, M.machine⟩ M.machine
          (executeUpTo settings n p.body M.machine).machine ∧
        M.machine.FindsAgain (executeUpTo settings n p.body M.machine).machine := by
  intro settings
  have hreclaim : settings.reclaim = true := rfl
  obtain ⟨clauses, s₁, hclauses, hread⟩ :=
    ok_of_bind ((congrFun (forFrom_eq (statementUpTo k)) s).symm.trans hread)
  obtain ⟨body, s₂, hbody, hnode⟩ := ok_of_bind hread
  cases hnode
  refine ⟨⟨clauses.1, clauses.2.1, clauses.2.2, body⟩, s₁, rfl, hclauses, hbody,
    spelled_of_read hclauses hbody, ?_⟩
  intro requests M hM n
  have hquiet : body.DeclaresNothing := statementUpTo_declaresNothing k s₁ body s' hbody
  have hfits : M.Fits False := hM.fits hreclaim False.elim
  have hm := hfits.machine False
  obtain ⟨u, hu, hmirrors, hleft, hright⟩ := (ForParts.execute_matched ⟨_, _, _, body⟩ hreclaim
    hquiet n _ (.refl _) _ _ (hm.matched_beside ⟨id, id⟩)).mirrors
  -- The same moment, at which the body is about to be executed instead.
  have hround : Moment.Fits False ⟨n, true, body, M.frames, M.machine⟩ :=
    ⟨hfits.machine, False.elim⟩
  have hkeeps := Moment.Keeps.of_declaresNothing hreclaim hround fun _ => hquiet
  refine ⟨⟨u.matching.twins, fun h hh => ?_, hmirrors⟩, hm.backIn hu.left hleft,
    hm.backIn hu.right hright, hkeeps, hkeeps.findsAgain hm (hround.backIn hreclaim)⟩
  exact hu.matching.twins (hm.mem_beside hh)

/-- In `for (var a = true; a; a = false) print a;` there is one round. -/
theorem for_loops_run_directly_once :
    let settings : Settings := ⟨0, true, 8, 8⟩
    let a := tokenIn 10 .identifier "a"
    let initializer := tokenIn 6 .varWord "var" :: (a :: tokenIn 12 .equal "=" ::
      [tokenIn 14 .trueWord "true"] ++ [tokenIn 18 .semicolon ";"])
    let increment := a :: tokenIn 25 .equal "=" :: [tokenIn 27 .falseWord "false"]
    let body := tokenIn 34 .printWord "print" :: [a] ++ [tokenIn 41 .semicolon ";"]
    let tokens := initializer ++ ([a] ++ tokenIn 21 .semicolon ";" :: (increment ++
      tokenIn 32 .rightParen ")" :: body))
    let s := Reading.start ⟨none, tokenIn 5 .leftParen "(", tokens ++ [tokenIn 42 .endOfFile ""], 0⟩
    ∃ (p : ForParts) (s' : Reading) (twins : List Twin),
      forFrom (statementUpTo 8) s = .ok p.node s' ∧ (Arena.globals, Arena.globals) ∈ twins ∧
        Outcome.Mirrors twins (executeUpTo settings 8 p.node .initial)
          (p.execute settings 8 .initial) ∧
        (executeUpTo settings 8 p.node .initial).machine.printed = #["true"] := by
  intro settings a initializer increment body tokens s
  have hsees : s.Sees (tokenIn 5 .leftParen "(" :: tokens) (tokenIn 42 .endOfFile "") :=
    ⟨⟨tokenIn 5 .leftParen "(" :: tokens, tokenIn 42 .endOfFile "", rfl, rfl, by decide⟩, [], rfl⟩
  have hinitializer : Grammar.Initializer initializer (.declare a.mark (.literal (.bool true))) :=
    .declare rfl (.initialized rfl rfl (.ofPrimary (.literal rfl)) rfl)
  have hincrement : Grammar.Optional increment (.assign a.mark (.literal (.bool false))) :=
    .present (.assignment rfl rfl (.ofPrimary (.literal rfl)))
  have hbody : Grammar.Statement 0 (.statement false) body (.print (.reference a.mark)) :=
    .print rfl (.ofName rfl) rfl
  have hseen := hsees.tail.skip.skip.tail.skip.tail
  have hread : forFrom (statementUpTo 8) s = _ := forFrom_of_ok rfl hinitializer
    (.present (.ofName (t := a) rfl)) rfl hincrement rfl hsees
    (followed hbody 8 _ _ hseen rfl (by decide) (by simp))
  obtain ⟨p, -, hp, -, -, -, hruns⟩ := for_loops_run_directly 0 8 8 hread
  have hM : Reached settings [.tree (.many [p.node])] ⟨8, true, p.node, [], .initial⟩ :=
    ⟨[], _, [], rfl, .statement (show _ = some ([] ++ p.node :: []) from rfl) rfl rfl⟩
  obtain ⟨⟨twins, htwins, hmirrors⟩, -⟩ := hruns _ _ hM 8
  rw [hp] at hread hmirrors
  refine ⟨p, _, twins, hread, htwins _ (.inr ⟨none, rfl⟩), hmirrors, ?_⟩
  rw [← hp]
  rfl

end LoxLang
