/-
Nobody can tell whether there is a scope in which nothing is ever bound.

* `settle` — what is left of twins and hollow scopes when a scope has been left;
* `inNewScope_matched`, `inHollow_matched` — effects in scopes that are entered on both sides, and
  in one that is entered on the first side only;
* `runBody_matched` — calls;
* `hollowSimulation` — hence statements and expressions, if no statement declares anything in a
  hollow scope (`Node.DeclaresNothing`).
-/
import LoxLang.Proofs.Machine.Declaring
import LoxLang.Proofs.Machine.Hollow

namespace LoxLang

variable {w : upToHollow.World} {settings : Settings} {m m' : Machine}

/-! ### Scopes that are left -/

/-- What is related by functions that close over pinned scopes only is so by the ones that are
left. -/
theorem Function.Renamed.within {φ : Matching} {left right : Layout} {f g : Function}
    (h : f.Renamed φ.twins g) (hf : left.shape.Pinned f.closure)
    (hg : right.shape.Pinned g.closure) :
    f.Renamed (φ.within left.Anchored right.Anchored).twins g :=
  { h with closure := Matching.mem_twins_within.mpr ⟨h.closure, .inr hf, .inr hg⟩ }

theorem Value.Renamed.within {φ : Matching} {left right : Layout} {a b : Value}
    (h : a.Renamed φ.twins b) (ha : a.Fits left) (hb : b.Fits right) :
    a.Renamed (φ.within left.Anchored right.Anchored).twins b := by
  cases h with
  | function h => exact .function (h.within (ha _ rfl).1 (hb _ rfl).1)
  | same h => exact .same h

/-- From a machine that fits `u` to one that fits `v`, around which is the layout `w`: no scope has
been changed, though one may have been given up. -/
structure Machine.Withdraws (w u v : Layout) (n k : Machine) : Prop where
  grown : w.Le v
  fits : k.Fits v
  scopes : ∀ g s, k.arena.scope g = .ok s → n.arena.scope g = .ok s
  values : ∀ a : Value, a.Fits u → a.Fits v
  calls : k.calls = n.calls
  nextId : k.nextId = n.nextId
  lines : k.SameLines n

theorem Machine.Withdraws.refl {w u : Layout} {n : Machine} (hwu : w.Le u) (hn : n.Fits u) :
    Machine.Withdraws w u u n n where
  grown := hwu
  fits := hn
  scopes _ _ := id
  values _ := id
  calls := rfl
  nextId := rfl
  lines := ⟨rfl, rfl, rfl, rfl⟩

theorem leaveScope_done {previous s : Handle} {n k : Machine} (hreclaim : settings.reclaim = true)
    (hleave : leaveScope settings previous s n = .done () k) :
    k = { n with arena := (n.arena.release s).1, current := previous } := by
  rw [leaveScope_apply, if_pos hreclaim] at hleave
  rcases heq : n.arena.release s with ⟨arena, r | _⟩
  · rw [Effect.releaseScope, Effect.onArena_of_error heq] at hleave
    cases hleave
  · rw [Effect.releaseScope, Effect.onArena_of_ok heq] at hleave
    cases hleave
    rfl

/-- A scope that is there when another one has been given up was there before. -/
theorem scope_of_release {a : Arena Key Value} {g h : Handle} {s : Scope Key Value}
    (hs : (a.release h).1.scope g = .ok s) : a.scope g = .ok s := by
  rw [Arena.release] at hs
  split at hs
  · exact hs
  · rename_i t ht
    dsimp only at hs
    split at hs
    · exact hs
    · by_cases hg : g = h
      · subst hg
        have hfreed : (a.free g).shape g = none := by
          rw [Arena.shape_free ht, Shape.free, if_pos rfl]
        rw [Arena.shape_of_scope hs] at hfreed
        cases hfreed
      · rwa [Arena.scope_free hg] at hs

/-- A scope is left that was entered in a layout. -/
theorem Machine.Fits.withdraw {w u : Layout} {n : Machine} {frame : Frame} {p : Handle}
    (hreclaim : settings.reclaim = true) (hfree : w.shape frame.scope = none)
    (hu : (w.enter frame p).Le u) (hn : n.Fits u) :
    ∃ v k, leaveScope settings w.frames.current frame.scope n = .done () k ∧
      Machine.Withdraws w u v n k := by
  obtain ⟨τ, k, hτ, hleave, hk⟩ := hn.leave hreclaim hu.frames
  refine ⟨{ u with frames := w.frames, shape := τ }, k, hleave, ?_⟩
  obtain rfl := leaveScope_done hreclaim hleave
  exact {
    grown := .of_left hfree hu hτ
    fits := hk
    scopes := fun g s hs => scope_of_release hs
    values := fun a ha => ha.leave hτ _
    calls := rfl
    nextId := rfl
    lines := ⟨rfl, rfl, rfl, rfl⟩ }

/-- Of what matches there is left what can still be reached on both sides. -/
theorem settle {w : Sides} {φ : Matching} {n n' k k' : Machine} {u u' left right : Layout}
    (hw : w.Coherent) (hφ : w.matching.Le φ) (hn : n.SameUpTo φ n')
    (hk : Machine.Withdraws w.left u left n k) (hk' : Machine.Withdraws w.right u' right n' k') :
    ∃ v : Sides, w.Le v ∧ Machine.Matched v k k' ∧
      ∀ a b : Value, a.Renamed φ.twins b → a.Fits u → b.Fits u' → Value.Matched v a b := by
  set ψ := φ.within left.Anchored right.Anchored
  have hgrown : w.Le ⟨left, right, ψ⟩ := by
    refine ⟨hk.grown, hk'.grown, fun x hx => ?_, fun y hy => ?_⟩
    · obtain ⟨hleft, hright⟩ := hw.twins x hx
      exact Matching.mem_twins_within.mpr
        ⟨hφ.twins hx, hk.grown.anchored hleft, hk'.grown.anchored hright⟩
    · exact Matching.mem_hollow_within.mpr
        ⟨hφ.hollow hy, hk.grown.anchored (hw.hollow y hy)⟩
  have hcoherent : Sides.Coherent ⟨left, right, ψ⟩ :=
    { loose := ⟨hk.grown.loose hw.loose.1, hk'.grown.loose hw.loose.2⟩
      twins := fun x hx => (Matching.mem_twins_within.mp hx).2
      hollow := fun y hy => (Matching.mem_hollow_within.mp hy).2
      current := by
        rw [hk.grown.frames, hk'.grown.frames]
        exact hw.current.mono hgrown.matching }
  have hcalls : List.Forall₂ (Function.Renamed ψ.twins) k.calls k'.calls := by
    rw [hk.calls, hk'.calls]
    refine forall₂_imp_mem hn.calls fun f hf g hg hfg => hfg.within ?_ ?_
    · exact hk.fits.functions f (hk.fits.calls ▸ hk.calls ▸ hf)
    · exact hk'.fits.functions g (hk'.fits.calls ▸ hk'.calls ▸ hg)
  have hsame : k.SameUpTo ψ k' :=
    { arena := hn.arena.within hk.scopes hk'.scopes
        (fun g hg => hk.fits.scope_of_anchored hg) (fun g hg => hk'.fits.scope_of_anchored hg)
        fun a ha b hb hab => hab.within (hk.fits.values a ha) (hk'.fits.values b hb)
      calls := hcalls
      nextId := by rw [hk.nextId, hk'.nextId, hn.nextId]
      lines := (hk.lines.trans hn.lines).trans hk'.lines.symm }
  have hmatched : Machine.Matched ⟨left, right, ψ⟩ k k' :=
    { hsame with
      left := hk.fits
      right := hk'.fits
      coherent := hcoherent }
  refine ⟨⟨left, right, ψ⟩, hgrown, hmatched, fun a b hab ha hb => ?_⟩
  have hleft := hk.values a ha
  have hright := hk'.values b hb
  exact ⟨hab.within hleft hright, hleft, hright⟩

/-- Scopes are left that were entered on both sides. -/
theorem leaveTwins_matched {w u : Sides} {n n' : Machine} {frame frame' : Frame} {p p' : Handle}
    {φ : Matching} (hreclaim : settings.reclaim = true) (hw : w.Coherent)
    (hφ : w.matching.Le φ) (hfree : w.left.shape frame.scope = none)
    (hfree' : w.right.shape frame'.scope = none)
    (hu : Sides.Le ⟨w.left.enter frame p, w.right.enter frame' p', φ⟩ u)
    (hn : Machine.Matched u n n') :
    ∃ v : Sides, w.Le v ∧
      (∀ why why', upToHollow.Leaving u why why' → upToHollow.Leaving v why why') ∧
      Outcome.Related upToHollow upToHollow.Halting upToHollow.Anything v
        (leaveScope settings w.left.frames.current frame.scope n)
        (leaveScope settings w.right.frames.current frame'.scope n') := by
  obtain ⟨_, k, hleave, hk⟩ := hn.left.withdraw hreclaim hfree hu.left
  obtain ⟨_, k', hleave', hk'⟩ := hn.right.withdraw hreclaim hfree' hu.right
  obtain ⟨v, hv, hmatched, hvalues⟩ := settle hw (hφ.trans hu.matching) hn.toSameUpTo hk hk'
  refine ⟨v, hv, ?_, ?_⟩
  · rintro why why' (hstop | ⟨a, b, rfl, rfl, -, hab⟩)
    · exact .inl hstop
    · exact .inr ⟨a, b, rfl, rfl, trivial, hvalues a b hab.renamed hab.left hab.right⟩
  · rw [hleave, hleave']
    exact .done (.refl v) hmatched trivial

/-! ### Scopes that are entered -/

namespace Layout

variable {v : Layout} {frame : Frame} {g p : Handle}

theorem anchored_enter (hfree : v.shape frame.scope = none) (hg : v.Anchored g) :
    (v.enter frame p).Anchored g := by
  rcases hg with hg | hg
  · exact .inl (List.mem_cons_of_mem _ hg)
  · exact .inr ((Shape.Persists.push hfree p).pinned hg)

theorem anchored_scope : (v.enter frame p).Anchored frame.scope := .inl List.mem_cons_self

end Layout

namespace Sides.Coherent

variable {w : Sides} {frame frame' : Frame} {g p p' : Handle}

/-- Scopes are entered on both sides. -/
theorem enter (hw : w.Coherent) (hfree : w.left.shape frame.scope = none)
    (hfree' : w.right.shape frame'.scope = none) :
    Sides.Coherent ⟨w.left.enter frame p, w.right.enter frame' p',
      ⟨(frame.scope, frame'.scope) :: w.matching.twins, w.matching.hollow⟩⟩ where
  loose := hw.loose
  twins x hx := by
    rcases List.mem_cons.mp hx with rfl | hx
    · exact ⟨Layout.anchored_scope, Layout.anchored_scope⟩
    · obtain ⟨hleft, hright⟩ := hw.twins x hx
      exact ⟨Layout.anchored_enter hfree hleft, Layout.anchored_enter hfree' hright⟩
  hollow y hy := Layout.anchored_enter hfree (hw.hollow y hy)
  current := .twin List.mem_cons_self

/-- A scope is entered on the first side only. -/
theorem enterHollow (hw : w.Coherent) (hfree : w.left.shape frame.scope = none)
    (hcurrent : w.left.frames.current = g) :
    Sides.Coherent ⟨w.left.enter frame p, w.right,
      ⟨w.matching.twins, (frame.scope, g) :: w.matching.hollow⟩⟩ where
  loose := hw.loose
  twins x hx := by
    obtain ⟨hleft, hright⟩ := hw.twins x hx
    exact ⟨Layout.anchored_enter hfree hleft, hright⟩
  hollow y hy := by
    rcases List.mem_cons.mp hy with rfl | hy
    · exact Layout.anchored_scope
    · exact Layout.anchored_enter hfree (hw.hollow y hy)
  current := by
    refine .outwards List.mem_cons_self (hcurrent ▸ hw.current.mono ?_)
    exact ⟨List.Subset.refl _, List.subset_cons_self _ _⟩

end Sides.Coherent

/-- An effect with another one after it on the first side only, which is done. -/
theorem Outcome.Related.ensuring_left {C : Correspondence} {α β : Type}
    {stops stops' : C.World → Stop → Stop → Prop} {results results' : C.World → α → β → Prop}
    {w inner : C.World} {x : Effect α} {last : Effect Unit} {m : Machine} {o' : Outcome β}
    (hx : Outcome.Related C stops results inner (x m) o')
    (hlast : ∀ u, C.le inner u → ∀ n n', C.machines u n n' → ∃ v k, C.le w v ∧
      last n = .done () k ∧ C.machines v k n' ∧
      (∀ why why', stops u why why' → stops' v why why') ∧
      ∀ a b, results u a b → results' v a b) :
    Outcome.Related C stops' results' w (Effect.ensuring x last m) o' := by
  rw [Effect.ensuring]
  generalize x m = o at hx ⊢
  cases hx with
  | done grown machines ends =>
    obtain ⟨v, k, hv, hdone, hk, -, hresults⟩ := hlast _ grown _ _ machines
    dsimp only
    rw [hdone]
    exact .done hv hk (hresults _ _ ends)
  | stopped grown machines ends =>
    obtain ⟨v, k, hv, hdone, hk, hstops, -⟩ := hlast _ grown _ _ machines
    dsimp only
    rw [hdone]
    exact .stopped hv hk (hstops _ _ ends)

/-- An effect in a new scope inside the current one, which is left however the effect ends. -/
def inNewScope (settings : Settings) (x : Effect Unit) : Effect Unit := do
  let previous ← Effect.gets (·.current)
  let scope ← Effect.pushScope previous
  Effect.ensuring
    (do
      Effect.modify fun m => { m with current := scope }
      x)
    (leaveScope settings previous scope)

theorem inNewScope_apply (settings : Settings) (x : Effect Unit) (m : Machine) :
    inNewScope settings x m =
      Effect.ensuring (fun n => x { n with current := (m.arena.push (some m.current)).2 })
        (leaveScope settings m.current (m.arena.push (some m.current)).2)
        { m with arena := (m.arena.push (some m.current)).1 } := by
  have h : Effect.gets (·.current) m = .done m.current m := rfl
  rw [inNewScope, Effect.bind_of_done h, Effect.bind_of_done (Effect.pushScope_apply _ m)]
  rfl

theorem executeBlock_eq (settings : Settings) (execute : Node → Effect Value)
    (statements : List Node) :
    executeBlock settings execute statements
      = inNewScope settings (executeAll execute statements) := by
  funext m
  rw [executeBlock_apply, executeIn_apply, inNewScope_apply]

/-- Effects in scopes that are entered on both sides. -/
theorem inNewScope_matched {x y : Effect Unit} (hreclaim : settings.reclaim = true)
    (hxy : ∀ u : upToHollow.World, u.Solid →
      Effect.Related upToHollow upToHollow.Leaving upToHollow.Anything u x y) :
    Effect.Related upToHollow upToHollow.Leaving upToHollow.Anything w (inNewScope settings x)
      (inNewScope settings y) := by
  intro u _ m m' hm
  obtain ⟨s, hs, hfree, hfits⟩ := hm.left.enterBlock
  obtain ⟨s', hs', hfree', hfits'⟩ := hm.right.enterBlock
  set inner : Sides := ⟨u.left.enter (.block s) u.left.frames.current,
    u.right.enter (.block s') u.right.frames.current,
    ⟨(s, s') :: u.matching.twins, u.matching.hollow⟩⟩
  have hgrown : u.matching.Le inner.matching := ⟨List.subset_cons_self _ _, List.Subset.refl _⟩
  have harena := hm.arena.push hm.left.tidy hm.right.tidy hm.outward.1
  rw [hs, hs'] at harena
  have hentered : Machine.Matched inner
      { m with arena := (m.arena.push (some m.current)).1, current := s }
      { m' with arena := (m'.arena.push (some m'.current)).1, current := s' } :=
    { left := hfits
      right := hfits'
      coherent := hm.coherent.enter hfree hfree'
      arena := harena.mono fun _ _ h => h.mono hgrown.twins
      calls := hm.calls.imp fun _ _ h => h.mono hgrown.twins
      nextId := hm.nextId
      lines := hm.lines }
  have hsolid : inner.Solid := List.mem_cons_self
  rw [inNewScope_apply, inNewScope_apply, hs, hs']
  refine Outcome.Related.ensuring (hxy inner hsolid inner (.refl _) _ _ hentered)
    (fun _ _ huv _ _ => .mono huv) (fun _ _ _ _ _ _ => trivial) ?_
  intro v hv n n' hn
  obtain ⟨z, hz, hstops, hleave⟩ := leaveTwins_matched hreclaim hm.coherent hgrown
    (show u.left.shape (Frame.block s).scope = none from hfree)
    (show u.right.shape (Frame.block s').scope = none from hfree') hv hn
  refine ⟨z, hz, hstops, fun _ _ _ => trivial, ?_⟩
  rw [hm.left.current, hm.right.current]
  exact hleave.weaken (fun _ _ _ => .inl) fun _ _ _ => id

/-- An effect in a scope that is entered on the first side only. -/
theorem inHollow_matched {x y : Effect Unit} (hreclaim : settings.reclaim = true)
    (hxy : ∀ u, Effect.Related upToHollow upToHollow.Leaving upToHollow.Anything u x y) :
    Effect.Related upToHollow upToHollow.Leaving upToHollow.Anything w (inNewScope settings x)
      y := by
  intro u _ m m' hm
  obtain ⟨s, hs, hfree, hfits⟩ := hm.left.enterBlock
  set inner : Sides := ⟨u.left.enter (.block s) u.left.frames.current, u.right,
    ⟨u.matching.twins, (s, m.current) :: u.matching.hollow⟩⟩
  have hgrown : u.matching.Le inner.matching := ⟨List.Subset.refl _, List.subset_cons_self _ _⟩
  have harena := hm.arena.pushHollow hm.left.tidy m.current
  rw [hs] at harena
  have hentered : Machine.Matched inner
      { m with arena := (m.arena.push (some m.current)).1, current := s } m' :=
    { left := hfits
      right := hm.right
      coherent := hm.coherent.enterHollow hfree hm.left.current.symm
      arena := harena
      calls := hm.calls
      nextId := hm.nextId
      lines := hm.lines }
  rw [inNewScope_apply, hs]
  refine Outcome.Related.ensuring_left (hxy inner inner (.refl _) _ _ hentered) ?_
  intro v hv n n' hn
  obtain ⟨_, k, hleave, hk⟩ := hn.left.withdraw hreclaim
    (show u.left.shape (Frame.block s).scope = none from hfree) hv.left
  obtain ⟨z, hz, hmatched, hvalues⟩ := settle hm.coherent (hgrown.trans hv.matching)
    hn.toSameUpTo hk (.refl hv.right hn.right)
  refine ⟨z, k, hz, hm.left.current ▸ hleave, hmatched, ?_, fun _ _ _ => trivial⟩
  rintro why why' (hstop | ⟨a, b, rfl, rfl, -, hab⟩)
  · exact .inl hstop
  · exact .inr ⟨a, b, rfl, rfl, trivial, hvalues a b hab.renamed hab.left hab.right⟩

/-! ### Calls -/

/-- Parameters that are bound in twins: either all of them are on both sides, or both sides stop at
the same one. -/
theorem bindParameters_matched {φ : Matching} {V : Value → Value → Prop} {x : Twin}
    {arguments arguments' : List Value} (m m' : Machine) (hx : x ∈ φ.twins) (names : List Mark)
    (hs : List.Forall₂ V arguments arguments') (hm : m.arena.Matched V φ m'.arena) :
    ∃ a a', Arena.Matched V φ a a' ∧
      ((bindParameters x.1 names arguments m = .done () { m with arena := a } ∧
          bindParameters x.2 names arguments' m' = .done () { m' with arena := a' }) ∨
        ∃ why, bindParameters x.1 names arguments m = .stopped why { m with arena := a } ∧
          bindParameters x.2 names arguments' m' = .stopped why { m' with arena := a' }) := by
  induction names generalizing arguments arguments' m m' with
  | nil => exact ⟨_, _, hm, .inl ⟨rfl, rfl⟩⟩
  | cons name names ih =>
    cases hs with
    | nil => exact ⟨_, _, hm, .inl ⟨rfl, rfl⟩⟩
    | @cons v v' arguments arguments' hv hs =>
      rw [bindParameters, bindParameters]
      cases hk : Key.ofName? name.lexeme with
      | none =>
        rw [Effect.bind_of_stopped (define_of_none v hk),
          Effect.bind_of_stopped (define_of_none v' hk)]
        exact ⟨_, _, hm, .inr ⟨_, rfl, rfl⟩⟩
      | some k =>
        obtain ⟨s, t, hscope, hscope', -⟩ := hm.twins x hx
        obtain ⟨c, c', hc, hc', hcc⟩ := hm.define hx k hv
        rw [Effect.bind_of_done (define_apply v hk (Arena.isSome_shape_iff.mpr ⟨s, hscope⟩)),
          Effect.bind_of_done (define_apply v' hk (Arena.isSome_shape_iff.mpr ⟨t, hscope'⟩)),
          hc, hc']
        exact ih { m with arena := c } { m' with arena := c' } hs hcc

/-- The call of a function that is under way. -/
def Layout.withCall (w : Layout) (f : Function) : Layout := { w with calls := f :: w.calls }

/-- The calls of two functions that are under way on the two sides. -/
def Sides.withCalls (w : Sides) (f f' : Function) : Sides :=
  ⟨w.left.withCall f, w.right.withCall f', w.matching⟩

/-- The scopes of the calls have been entered. -/
def Sides.called (w : Sides) (f f' : Function) (s s' : Handle) : Sides :=
  ⟨(w.left.withCall f).enter (.call f s) f.closure,
    (w.right.withCall f').enter (.call f' s') f'.closure,
    ⟨(s, s') :: w.matching.twins, w.matching.hollow⟩⟩

theorem Value.Matched.forall₂_fits {w : Sides} {as bs : List Value}
    (hs : List.Forall₂ (Value.Matched w) as bs) :
    List.Forall₂ (Value.Renamed w.matching.twins) as bs ∧ (∀ a ∈ as, a.Fits w.left) ∧
      ∀ b ∈ bs, b.Fits w.right := by
  induction hs with
  | nil => exact ⟨.nil, by simp, by simp⟩
  | cons h _ ih =>
    obtain ⟨hrenamed, hleft, hright⟩ := ih
    exact ⟨.cons h.renamed hrenamed, List.forall_mem_cons.mpr ⟨h.left, hleft⟩,
      List.forall_mem_cons.mpr ⟨h.right, hright⟩⟩

/-- Two calls are open, or both are off for one reason.  The scopes that are made for them are
inside twins, and are twins themselves. -/
theorem openCall_bound {f f' : Function} {arguments arguments' : List Value}
    (hm : Machine.Matched w m m') (hff : f.Renamed w.matching.twins f')
    (hs : List.Forall₂ (Value.Renamed w.matching.twins) arguments arguments') :
    ∃ s s' a a', Machine.SameUpTo ⟨(s, s') :: w.matching.twins, w.matching.hollow⟩
        { m with arena := a } { m' with arena := a' } ∧
      ((openCall f arguments m = .done s
            { m with
              arena := a
              calls := f :: m.calls } ∧
          openCall f' arguments' m' = .done s'
            { m' with
              arena := a'
              calls := f' :: m'.calls }) ∨
        ∃ why, openCall f arguments m = .stopped why { m with arena := a } ∧
          openCall f' arguments' m' = .stopped why { m' with arena := a' }) := by
  have harena := hm.arena.push hm.left.tidy hm.right.tidy (.twin hff.closure)
  set s := (m.arena.push (some f.closure)).2
  set s' := (m'.arena.push (some f'.closure)).2
  have hgrown : w.matching.twins ⊆ (s, s') :: w.matching.twins := List.subset_cons_self _ _
  obtain ⟨a, a', haa, hbound⟩ := bindParameters_matched
    { m with arena := (m.arena.push (some f.closure)).1 }
    { m' with arena := (m'.arena.push (some f'.closure)).1 }
    (show (s, s') ∈ (s, s') :: w.matching.twins from List.mem_cons_self) f.params
    (hs.imp fun _ _ h => h.mono hgrown) (harena.mono fun _ _ h => h.mono hgrown)
  refine ⟨s, s', a, a', ⟨haa, hm.calls.imp fun _ _ h => h.mono hgrown, hm.nextId, hm.lines⟩, ?_⟩
  rw [openCall, openCall, Effect.bind_of_done (Effect.pushScope_apply f.closure m),
    Effect.bind_of_done (Effect.pushScope_apply f'.closure m'), ← hff.params]
  rcases hbound with ⟨hdone, hdone'⟩ | ⟨why, hstopped, hstopped'⟩
  · rw [Effect.bind_of_done hdone, Effect.bind_of_done hdone']
    exact .inl ⟨rfl, rfl⟩
  · rw [Effect.bind_of_stopped hstopped, Effect.bind_of_stopped hstopped']
    exact .inr ⟨why, rfl, rfl⟩

/-- Calls are opened on both sides, or on neither. -/
theorem openCall_matched {f f' : Function} {arguments arguments' : List Value}
    (hm : Machine.Matched w m m') (hf : Value.Matched w (.function f) (.function f'))
    (hs : List.Forall₂ (Value.Matched w) arguments arguments')
    (hlength : arguments.length = f.arity) :
    (∃ s s' n n', openCall f arguments m = .done s n ∧ openCall f' arguments' m' = .done s' n' ∧
      n.current = m.current ∧ n'.current = m'.current ∧ w.left.shape s = none ∧
      w.right.shape s' = none ∧
      Machine.Matched (w.called f f' s s') { n with current := s } { n' with current := s' }) ∨
    ∃ why v n n', openCall f arguments m = .stopped why n ∧
      openCall f' arguments' m' = .stopped why n' ∧ upToHollow.Halting w why why ∧ w.Le v ∧
      Machine.Matched v n n' := by
  obtain ⟨hrenamed, hleft, hright⟩ := hf
  cases hrenamed with
  | same h => exact absurd rfl (h f)
  | function hff =>
  obtain ⟨has, hfits, hfits'⟩ := Value.Matched.forall₂_fits hs
  have hlength' : arguments'.length = f'.arity := by
    rw [← hs.length_eq, hlength]
    exact congrArg List.length hff.params
  have hopen := openCall_fits hm.left hleft hfits hlength
  have hopen' := openCall_fits hm.right hright hfits' hlength'
  obtain ⟨s, s', a, a', hsame, ⟨hdone, hdone'⟩ | ⟨why, hstopped, hstopped'⟩⟩ :=
    openCall_bound hm hff has
  · rw [hdone] at hopen ⊢
    rw [hdone'] at hopen' ⊢
    obtain ⟨_, _, hn, -, hfree, hentered⟩ | ⟨_, _, _, hn, -⟩ := hopen
    · obtain ⟨_, _, hn', -, hfree', hentered'⟩ | ⟨_, _, _, hn', -⟩ := hopen'
      · cases hn
        cases hn'
        have hcoherent : (w.withCalls f f').Coherent :=
          ⟨hm.coherent.loose, hm.coherent.twins, hm.coherent.hollow, hm.coherent.current⟩
        refine .inl ⟨_, _, _, _, rfl, rfl, rfl, rfl, hfree, hfree', ?_⟩
        exact {
          left := hentered
          right := hentered'
          coherent := hcoherent.enter
            (show (w.withCalls f f').left.shape (Frame.call f s).scope = none from hfree)
            (show (w.withCalls f f').right.shape (Frame.call f' s').scope = none from hfree')
          arena := hsame.arena
          calls := .cons (hff.mono (List.subset_cons_self _ _)) hsame.calls
          nextId := hm.nextId
          lines := hm.lines }
      · cases hn'
    · cases hn
  · rw [hstopped] at hopen ⊢
    rw [hstopped'] at hopen' ⊢
    obtain ⟨_, _, hn, -⟩ | ⟨_, n, v, hn, hwhy, hv, hentered⟩ := hopen
    · cases hn
    · obtain ⟨_, _, hn', -⟩ | ⟨_, n', v', hn', -, hv', hentered'⟩ := hopen'
      · cases hn'
      · cases hn
        cases hn'
        -- The scopes that were made are not entered, and so they do not match any more.
        have hgrown : w.matching.Le ⟨(s, s') :: w.matching.twins, w.matching.hollow⟩ :=
          ⟨List.subset_cons_self _ _, List.Subset.refl _⟩
        obtain ⟨z, hz, hmatched, -⟩ :=
          settle hm.coherent hgrown hsame (.refl hv hentered) (.refl hv' hentered')
        exact .inr ⟨why, z, _, _, rfl, rfl, ⟨rfl, trivial, hwhy⟩, hz, hmatched⟩

/-- When calls are over, there is one call less on both sides. -/
theorem Sides.Le.of_calls {u w : Sides} {f f' : Function} (hu : (w.withCalls f f').Le u) :
    w.Le ⟨{ u.left with calls := w.left.calls }, { u.right with calls := w.right.calls },
      u.matching⟩ :=
  ⟨.of_calls hu.left, .of_calls hu.right, hu.matching⟩

/-- The machines when the calls are over. -/
theorem Machine.Matched.endCalls {u w : Sides} {f f' : Function} {n n' : Machine}
    (hn : Machine.Matched u n n') (hm : Machine.Matched w m m') (hu : (w.withCalls f f').Le u) :
    Machine.Matched ⟨{ u.left with calls := w.left.calls },
      { u.right with calls := w.right.calls }, u.matching⟩
      { n with calls := n.calls.tail } { n' with calls := n'.calls.tail } where
  left := by
    have htail : n.calls.tail = w.left.calls := by
      rw [hn.left.calls, hu.left.calls]
      rfl
    rw [htail]
    refine hn.left.withCalls (fun h => ?_) fun g hg => ?_
    · rw [hu.left.frames]
      exact hm.left.outside h
    · exact hu.left.persists.pinned (hm.left.functions g hg)
  right := by
    have htail : n'.calls.tail = w.right.calls := by
      rw [hn.right.calls, hu.right.calls]
      rfl
    rw [htail]
    refine hn.right.withCalls (fun h => ?_) fun g hg => ?_
    · rw [hu.right.frames]
      exact hm.right.outside h
    · exact hu.right.persists.pinned (hm.right.functions g hg)
  coherent := ⟨hn.coherent.loose, hn.coherent.twins, hn.coherent.hollow, hn.coherent.current⟩
  arena := hn.arena
  calls := by
    have hcalls := hn.calls
    generalize n.calls = calls, n'.calls = calls' at hcalls ⊢
    cases hcalls with
    | nil => exact .nil
    | cons _ hrest => exact hrest
  nextId := hn.nextId
  lines := hn.lines

theorem runBody_matched {execute execute' : Node → Effect Value} {f f' : Function}
    {arguments arguments' : List Value} (hreclaim : settings.reclaim = true)
    (hexecute : ∀ (u : upToHollow.World) (e : Node), u.Solid →
      Effect.Related upToHollow upToHollow.Leaving upToHollow.values u (execute e) (execute' e))
    (hf : Value.Matched w (.function f) (.function f'))
    (hs : List.Forall₂ (Value.Matched w) arguments arguments')
    (hlength : arguments.length = f.arity) :
    Effect.Related upToHollow upToHollow.Halting upToHollow.values w
      (runBody settings execute f arguments) (runBody settings execute' f' arguments') := by
  intro u hu m m' hm
  have hbody : f.body = f'.body := by
    cases hf.renamed with
    | function h => exact h.body
    | same h => exact absurd rfl (h f)
  rw [runBody_eq, runBody_eq]
  obtain ⟨s, s', n, n', hn, hn', hcurrent, hcurrent', hfree, hfree', hentered⟩
    | ⟨why, v, n, n', hn, hn', hhalt, hv, hmatched⟩ :=
    openCall_matched hm (upToHollow.values_mono hu hf)
      (hs.imp fun _ _ => upToHollow.values_mono hu) hlength
  · rw [Effect.bind_of_done hn, Effect.bind_of_done hn']
    have hcoherent : (u.withCalls f f').Coherent :=
      ⟨hm.coherent.loose, hm.coherent.twins, hm.coherent.hollow, hm.coherent.current⟩
    have hsolid : (u.called f f' s s').Solid := List.mem_cons_self
    have hgrown : (u.withCalls f f').matching.Le (u.called f f' s s').matching :=
      ⟨List.subset_cons_self _ _, List.Subset.refl _⟩
    have hstatements : Outcome.Related upToHollow upToHollow.Leaving upToHollow.Anything
        (u.withCalls f f') (executeIn settings execute f.body s n)
        (executeIn settings execute' f'.body s' n') := by
      rw [← hbody]
      refine executeIn_related (C := upToHollow) hentered
        (executeAll_related fun e _ v hv => hexecute v e (hv.solid hsolid)) ?_
      intro v hv k k' hk
      rw [hcurrent, hcurrent', hm.left.current, hm.right.current]
      exact leaveTwins_matched hreclaim hcoherent hgrown
        (show (u.withCalls f f').left.shape (Frame.call f s).scope = none from hfree)
        (show (u.withCalls f f').right.shape (Frame.call f' s').scope = none from hfree') hv hk
    refine closeCall_related (fun _ => .of_isScalar rfl) hstatements ?_
    intro v hv k k' hk
    refine ⟨_, .of_calls hv, hk.endCalls hm hv, fun a b hab => ⟨hab.renamed, hab.left, hab.right⟩⟩
  · rw [Effect.bind_of_stopped hn, Effect.bind_of_stopped hn']
    exact .stopped hv hmatched hhalt

/-! ### Hollow scopes as a simulation -/

/-- A machine that has entered hollow scopes keeps up with one that has not. -/
def hollowSimulation (settings : Settings) (hreclaim : settings.reclaim = true) :
    Simulation settings settings where
  toCorrespondence := upToHollow
  expression _ _ := True
  statement w e := w.Solid ∨ e.DeclaresNothing
  expression_mono _ _ := trivial
  statement_mono hvw h := h.imp_left hvw.solid
  expression_operand _ _ := trivial
  statement_operand _ _ := trivial
  statement_branch h hblock he := by
    refine h.imp_right fun h => ?_
    cases h with
    | intro _ _ branches => exact branches hblock _ he
  maxCalls_eq := settings.maxCalls_self
  calls_length hm := hm.calls.length_eq
  unscoped_eq h := h.renamed.unscoped_eq
  scalar h := .of_isScalar h
  literal {w j} _ := by
    have hne : ∀ f, Value.ofJson j ≠ .function f := by
      intro f hf
      cases j <;> cases hf
    exact ⟨.same hne, .of_ne hne, .of_ne hne⟩
  exhausted := trivial
  raises _ _ := trivial
  notStatement _ _ := trivial
  topLevelReturn _ _ _ := trivial
  active_of_calls _ _ := trivial
  print line := lines_matched (fun _ => ⟨rfl, rfl, rfl, rfl⟩)
    fun _ _ h => ⟨congrArg (·.push line) h.1, h.2⟩
  report line := lines_matched (fun _ => ⟨rfl, rfl, rfl, rfl⟩)
    fun _ _ h => ⟨h.1, h.2.1, congrArg (·.push line) h.2.2.1, h.2.2.2⟩
  trace least line := traceFrom_matched least settings line
  lookUp _ := lookUp_matched _
  assign _ hab := assign_matched _ hab
  declare h hab := by
    refine defineHere_matched (h.resolve_right fun h => ?_) hab
    cases h with
    | intro noVariable _ _ => exact noVariable _ _ rfl
  declareFunction h := by
    refine declareFunction_matched _ _ _ (h.resolve_right fun h => ?_)
    cases h with
    | intro _ noFunction _ => exact noFunction _ _ _ rfl
  block {w execute execute' statements} hexecute _ := by
    rw [executeBlock_eq, executeBlock_eq]
    refine inNewScope_matched hreclaim fun u hu => ?_
    exact executeAll_related fun e _ v hv => hexecute v e (.inl (hv.solid hu))
  body {w execute execute' f f' arguments arguments'} hexecute hf hs hlength :=
    runBody_matched hreclaim (fun u e hu => hexecute u e (.inl hu)) hf hs hlength

end LoxLang
