/-
Two machines, of which one has entered some scopes more.

These scopes are hollow: while one of them is the current scope, only statements are executed that
declare nothing there.  All other scopes of the first machine that can still be reached have twins
in the second one (`Machine.Matched`).  So names are looked up to the same effect
(`lookUp_matched`), assigned to (`assign_matched`) and declared, where the current scope is not
hollow (`defineHere_matched`, `declareFunction_matched`).
-/
import LoxLang.Proofs.Machine.Origins
import LoxLang.Proofs.Machine.Reclaim
import LoxLang.Proofs.Scope.Anchors
import LoxLang.Proofs.Scope.Hollow

namespace LoxLang

/-! ### Layouts and machines -/

namespace Layout

variable {v w : Layout} {h : Handle}

/-- The scope can still be reached. -/
def Anchored (w : Layout) (h : Handle) : Prop := w.shape.Anchored w.frames h

/-- Nothing is claimed of parameters, nor of statements outside calls. -/
def Loose (w : Layout) : Prop := ¬w.named ∧ ¬w.still

theorem Le.anchored (hvw : v.Le w) (hh : v.Anchored h) : w.Anchored h := by
  rcases hh with hh | hh
  · exact .inl (hvw.frames ▸ hh)
  · exact .inr (hvw.persists.pinned hh)

theorem Le.loose (hvw : v.Le w) (hv : v.Loose) : w.Loose := by
  rw [Loose, hvw.named, hvw.still]
  exact hv

end Layout

namespace Machine

variable {m m' n n' : Machine} {w : Layout} {h : Handle}

theorem Fits.scope_of_anchored (hm : m.Fits w) (hh : w.Anchored h) :
    ∃ s, m.arena.scope h = .ok s ∧ ∀ p ∈ s.parent, w.Anchored p := by
  obtain ⟨s, hs⟩ := Arena.isSome_shape_iff.mp (hm.shape ▸ hm.proper.isSome_of_anchored hh)
  refine ⟨s, hs, fun p hp => ?_⟩
  have hshape := Arena.shape_of_scope hs
  rw [hm.shape, Option.mem_def.mp hp] at hshape
  exact hm.proper.anchored_parent hh hshape

/-- From a scope that can be reached outwards there are finitely many, and each of them once. -/
theorem Fits.outward (hm : m.Fits w) (hh : w.Anchored h) :
    ∃ l, m.arena.Outward h l ∧ l.Nodup := by
  obtain ⟨l, hl⟩ := hm.proper.exists_chain hh
  exact ⟨l, Arena.outward_of_chain (hm.shape ▸ hl), hl.nodup⟩

/-- Where a machine has its scopes is told by its arena, its current scope and its calls. -/
theorem Fits.of_same (hm : m.Fits w) (harena : n.arena = m.arena) (hcurrent : n.current = m.current)
    (hcalls : n.calls = m.calls) (hnextId : n.nextId = m.nextId) : n.Fits w := by
  obtain ⟨arena, current, calls, nextId, _, _, _, _⟩ := n
  cases harena
  cases hcurrent
  cases hcalls
  cases hnextId
  exact ⟨hm.tidy, hm.shape, hm.proper, hm.tight, hm.current, hm.calls, hm.declared, hm.outside,
    hm.functions, hm.values, hm.bound⟩

/-- The same lines have been written by both machines. -/
def SameLines (m m' : Machine) : Prop :=
  m.printed = m'.printed ∧ m.traced = m'.traced ∧ m.reported = m'.reported ∧
    m.traceOpen = m'.traceOpen

theorem SameLines.symm (h : m.SameLines m') : m'.SameLines m :=
  ⟨h.1.symm, h.2.1.symm, h.2.2.1.symm, h.2.2.2.symm⟩

theorem SameLines.trans (h : m.SameLines m') (h' : m'.SameLines n) : m.SameLines n :=
  ⟨h.1.trans h'.1, h.2.1.trans h'.2.1, h.2.2.1.trans h'.2.2.1, h.2.2.2.trans h'.2.2.2⟩

end Machine

/-- Where two machines have their scopes, and which of these match. -/
structure Sides where
  left : Layout
  right : Layout
  matching : Matching

namespace Sides

variable {u v w : Sides}

/-- What becomes of this while the machines run. -/
structure Le (v w : Sides) : Prop where
  left : v.left.Le w.left
  right : v.right.Le w.right
  matching : v.matching.Le w.matching

theorem Le.refl (w : Sides) : Le w w := ⟨.refl _, .refl _, .refl _⟩

theorem Le.trans (huv : Le u v) (hvw : Le v w) : Le u w :=
  ⟨huv.left.trans hvw.left, huv.right.trans hvw.right, huv.matching.trans hvw.matching⟩

/-- The current scopes are twins, so that neither is hollow. -/
def Solid (w : Sides) : Prop :=
  (w.left.frames.current, w.right.frames.current) ∈ w.matching.twins

theorem Le.solid (hvw : Le v w) (hv : v.Solid) : w.Solid := by
  rw [Solid, hvw.left.frames, hvw.right.frames]
  exact hvw.matching.twins hv

/-- Scopes that match can still be reached, and the current scopes match. -/
structure Coherent (w : Sides) : Prop where
  loose : w.left.Loose ∧ w.right.Loose
  twins : ∀ x ∈ w.matching.twins, w.left.Anchored x.1 ∧ w.right.Anchored x.2
  hollow : ∀ y ∈ w.matching.hollow, w.left.Anchored y.1
  current : w.matching.Meets w.left.frames.current w.right.frames.current

/-- While the matching stays as it is, so does this. -/
theorem Coherent.mono (hv : v.Coherent) (hvw : Le v w) (heq : w.matching = v.matching) :
    w.Coherent where
  loose := ⟨hvw.left.loose hv.loose.1, hvw.right.loose hv.loose.2⟩
  twins x hx := by
    obtain ⟨hleft, hright⟩ := hv.twins x (heq ▸ hx)
    exact ⟨hvw.left.anchored hleft, hvw.right.anchored hright⟩
  hollow y hy := hvw.left.anchored (hv.hollow y (heq ▸ hy))
  current := by
    rw [hvw.left.frames, hvw.right.frames, heq]
    exact hv.current

end Sides

/-- The machines are the same up to hollow scopes of the first one, and up to the handles of all
scopes. -/
structure Machine.SameUpTo (φ : Matching) (m m' : Machine) : Prop where
  arena : m.arena.Matched (Value.Renamed φ.twins) φ m'.arena
  calls : List.Forall₂ (Function.Renamed φ.twins) m.calls m'.calls
  nextId : m.nextId = m'.nextId
  lines : m.SameLines m'

/-- So they are, and they have their scopes where the layouts say. -/
structure Machine.Matched (w : Sides) (m m' : Machine) : Prop extends
    Machine.SameUpTo w.matching m m' where
  left : m.Fits w.left
  right : m'.Fits w.right
  coherent : w.Coherent

/-- Values are the same up to the scopes of functions, which are pinned. -/
structure Value.Matched (w : Sides) (a b : Value) : Prop where
  renamed : a.Renamed w.matching.twins b
  left : a.Fits w.left
  right : b.Fits w.right

theorem Value.Matched.of_isScalar {w : Sides} {a : Value} (ha : a.isScalar) : a.Matched w a := by
  have hne : ∀ f, a ≠ .function f := by
    rintro f rfl
    cases ha
  exact ⟨.same hne, .of_ne hne, .of_ne hne⟩

/-- Machines correspond up to hollow scopes. -/
def upToHollow : Correspondence where
  World := Sides
  le := Sides.Le
  machines := Machine.Matched
  values := Value.Matched
  halts _ := True
  active _ := True
  le_refl := Sides.Le.refl
  le_trans := Sides.Le.trans
  values_mono hvw h :=
    ⟨h.renamed.mono hvw.matching.twins, h.left.mono hvw.left, h.right.mono hvw.right⟩
  active_mono _ h := h

variable {w : upToHollow.World} {settings : Settings} {m m' : Machine}

/-! ### Lines -/

/-- Lines make no difference. -/
theorem lines_matched {f : Machine → Machine}
    (hkeeps : ∀ m, (f m).arena = m.arena ∧ (f m).current = m.current ∧ (f m).calls = m.calls ∧
      (f m).nextId = m.nextId)
    (hlines : ∀ m m' : Machine, m.SameLines m' → (f m).SameLines (f m')) :
    Effect.Related upToHollow upToHollow.Halting upToHollow.Anything w (Effect.modify f)
      (Effect.modify f) := by
  refine .modify fun u _ m m' hm => ?_
  obtain ⟨harena, hcurrent, hcalls, hid⟩ := hkeeps m
  obtain ⟨harena', hcurrent', hcalls', hid'⟩ := hkeeps m'
  exact {
    left := hm.left.of_same harena hcurrent hcalls hid
    right := hm.right.of_same harena' hcurrent' hcalls' hid'
    coherent := hm.coherent
    arena := by rw [harena, harena']; exact hm.arena
    calls := by rw [hcalls, hcalls']; exact hm.calls
    nextId := by rw [hid, hid']; exact hm.nextId
    lines := hlines m m' hm.lines }

theorem traceFrom_matched (least : Nat) (settings : Settings) (line : String) :
    Effect.Related upToHollow upToHollow.Halting upToHollow.Anything w
      (traceFrom least settings line) (traceFrom least settings line) := by
  rw [traceFrom]
  split
  · refine lines_matched (fun m => ?_) fun m m' h => ?_
    · split
      · exact ⟨rfl, rfl, rfl, rfl⟩
      · split
        · exact ⟨rfl, rfl, rfl, rfl⟩
        · exact ⟨rfl, rfl, rfl, rfl⟩
    · obtain ⟨hprinted, htraced, hreported, hopen⟩ := h
      by_cases hlevel : settings.level = 0
      · rw [if_pos hlevel, if_pos hlevel]
        exact ⟨hprinted, htraced, hreported, hopen⟩
      · rw [if_neg hlevel, if_neg hlevel, ← hopen]
        split
        · exact ⟨hprinted, congrArg (·.push line) htraced, hreported, rfl⟩
        · exact ⟨congrArg (·.push line) hprinted, htraced, hreported, rfl⟩
  · exact .pure fun _ _ => trivial

/-! ### Names -/

theorem key_matched (name : Mark) : Effect.Related upToHollow upToHollow.Halting upToHollow.Same w
    (Effect.key name) (Effect.key name) := by
  unfold Effect.key
  split
  · exact .pure fun _ _ => rfl
  · exact .halt trivial (by simp)

/-- Both machines after bindings have been made alike. -/
theorem Machine.Matched.rebound (hm : Machine.Matched w m m') {arena arena' : Arena Key Value}
    (h : Arena.Rebound (Value.Fits w.left) m.arena arena)
    (h' : Arena.Rebound (Value.Fits w.right) m'.arena arena')
    (harena : arena.Matched (Value.Renamed w.matching.twins) w.matching arena') :
    Machine.Matched w { m with arena := arena } { m' with arena := arena' } :=
  { hm with
    left := hm.left.rebound h
    right := hm.right.rebound h'
    arena := harena }

/-- What is found by the walks outwards from the current scopes. -/
theorem Machine.Matched.outward (hm : Machine.Matched w m m') :
    w.matching.Meets m.current m'.current ∧ (∃ l, m.arena.Outward m.current l ∧ l.Nodup) ∧
      ∃ l, m'.arena.Outward m'.current l ∧ l.Nodup := by
  rw [hm.left.current, hm.right.current]
  exact ⟨hm.coherent.current, hm.left.outward hm.left.proper.anchored_current,
    hm.right.outward hm.right.proper.anchored_current⟩

theorem lookUp_matched (name : Mark) : Effect.Related upToHollow upToHollow.Halting
    upToHollow.values w (Effect.lookUp name) (Effect.lookUp name) := by
  refine .bind (key_matched name) ?_
  intro u _ k k' hk
  obtain rfl : k = k' := hk
  intro v _ m m' hm
  have hcurrent : (Effect.gets (·.current) : Effect Handle) m = .done m.current m := rfl
  have hcurrent' : (Effect.gets (·.current) : Effect Handle) m' = .done m'.current m' := rfl
  rw [Effect.bind_of_done hcurrent, Effect.bind_of_done hcurrent']
  obtain ⟨hmeets, ⟨l, hl, hnodup⟩, l', hl', hnodup'⟩ := hm.outward
  obtain ⟨ha, hb⟩ | ⟨a, b, ha, hb, hab⟩ := hm.arena.get hmeets hl hnodup hl' hnodup' k
  · rw [blaming_of_unbound (Effect.onArena_of_error (by rw [ha])),
      blaming_of_unbound (Effect.onArena_of_error (by rw [hb]))]
    exact .stopped (.refl v) hm ⟨rfl, trivial, by simp⟩
  · rw [blaming_of_done (Effect.onArena_of_ok (by rw [ha])),
      blaming_of_done (Effect.onArena_of_ok (by rw [hb]))]
    exact .done (.refl v) hm ⟨hab, hm.left.values.get ha, hm.right.values.get hb⟩

theorem assign_matched (name : Mark) {a b : Value} (hab : upToHollow.values w a b) :
    Effect.Related upToHollow upToHollow.Halting upToHollow.Anything w (Effect.assign name a)
      (Effect.assign name b) := by
  refine .bind (key_matched name) ?_
  intro u hu k k' hk
  obtain rfl : k = k' := hk
  intro v hv m m' hm
  have hab := upToHollow.values_mono (upToHollow.le_trans hu hv) hab
  have hcurrent : (Effect.gets (·.current) : Effect Handle) m = .done m.current m := rfl
  have hcurrent' : (Effect.gets (·.current) : Effect Handle) m' = .done m'.current m' := rfl
  rw [Effect.bind_of_done hcurrent, Effect.bind_of_done hcurrent']
  have hleft := Arena.Rebound.assign (P := Value.Fits v.left) m.arena m.current k hab.left
  have hright := Arena.Rebound.assign (P := Value.Fits v.right) m'.arena m'.current k hab.right
  obtain ⟨hmeets, ⟨l, hl, hnodup⟩, l', hl', hnodup'⟩ := hm.outward
  obtain ⟨hc, hc'⟩ | ⟨c, c', hc, hc', harena⟩ :=
    hm.arena.assign hmeets hl hnodup hl' hnodup' k hab.renamed
  · rw [blaming_of_unbound (Effect.onArena_of_error hc),
      blaming_of_unbound (Effect.onArena_of_error hc')]
    exact .stopped (.refl v) hm ⟨rfl, trivial, by simp⟩
  · rw [blaming_of_done (Effect.onArena_of_ok hc), blaming_of_done (Effect.onArena_of_ok hc')]
    rw [hc] at hleft
    rw [hc'] at hright
    exact .done (.refl v) (hm.rebound hleft hright harena) trivial

/-- Binding a name in twins. -/
theorem define_matched {x : Twin} {name : Mark} {a b : Value} (hx : x ∈ w.matching.twins)
    (hab : upToHollow.values w a b) :
    Effect.Related upToHollow upToHollow.Halting upToHollow.Anything w (Effect.define x.1 name a)
      (Effect.define x.2 name b) := by
  refine .bind (key_matched name) ?_
  intro u hu k k' hk
  obtain rfl : k = k' := hk
  intro v hv m m' hm
  have hwv := upToHollow.le_trans hu hv
  have hab := upToHollow.values_mono hwv hab
  have hleft := Arena.Rebound.define (P := Value.Fits v.left) m.arena x.1 k hab.left
  have hright := Arena.Rebound.define (P := Value.Fits v.right) m'.arena x.2 k hab.right
  obtain ⟨c, c', hc, hc', harena⟩ := hm.arena.define (hwv.matching.twins hx) k hab.renamed
  rw [Effect.onArena_of_ok hc, Effect.onArena_of_ok hc']
  rw [hc] at hleft
  rw [hc'] at hright
  exact .done (.refl v) (hm.rebound hleft hright harena) trivial

/-- Binding a name in the current scope, unless that is hollow. -/
theorem defineHere_matched {name : Mark} {a b : Value} (hw : w.Solid)
    (hab : upToHollow.values w a b) :
    Effect.Related upToHollow upToHollow.Halting upToHollow.Anything w (Effect.defineHere name a)
      (Effect.defineHere name b) := by
  intro u hu m m' hm
  have hcurrent : (Effect.gets (·.current) : Effect Handle) m
      = .done u.left.frames.current m := by
    rw [← hm.left.current]
    rfl
  have hcurrent' : (Effect.gets (·.current) : Effect Handle) m'
      = .done u.right.frames.current m' := by
    rw [← hm.right.current]
    rfl
  rw [Effect.defineHere, Effect.defineHere, Effect.bind_of_done hcurrent,
    Effect.bind_of_done hcurrent']
  exact define_matched (x := (_, _)) (hu.solid hw) (upToHollow.values_mono hu hab) u (.refl u) m m'
    hm

/-! ### Declaring a function -/

theorem pinScope_done {h : Handle} {n : Machine} (hpin : Effect.pinScope h m = .done () n) :
    n = { m with arena := (m.arena.pin h).1 } := by
  rcases heq : m.arena.pin h with ⟨arena, r | _⟩
  · rw [Effect.pinScope, Effect.onArena_of_error heq] at hpin
    cases hpin
  · rw [Effect.pinScope, Effect.onArena_of_ok heq] at hpin
    cases hpin
    rfl

/-- The scopes that functions close over which are declared now. -/
theorem Machine.Matched.closure (hm : Machine.Matched w m m') (hw : w.Solid) :
    (m.closure, m'.closure) ∈ w.matching.twins := by
  have hcalls := hm.calls
  unfold Machine.closure
  generalize m.calls = calls, m'.calls = calls' at hcalls
  cases hcalls with
  | nil =>
    rw [hm.left.current, hm.right.current]
    exact hw
  | cons hf _ => exact hf.closure

theorem pinClosure_matched (hw : w.Solid) (hm : Machine.Matched w m m') :
    ∃ v n n', w.Le v ∧ Effect.pinScope m.closure m = .done () n ∧
      Effect.pinScope m'.closure m' = .done () n' ∧ Machine.Matched v n n' ∧
      (m.closure, m'.closure) ∈ v.matching.twins ∧ v.left.shape.Pinned m.closure ∧
      v.right.shape.Pinned m'.closure := by
  obtain ⟨v, n, hv, hpin, hn, hpinned, -⟩ :=
    pinClosure_fits (fun h => absurd h hm.coherent.loose.1.2) hm.left
  obtain ⟨v', n', hv', hpin', hn', hpinned', -⟩ :=
    pinClosure_fits (fun h => absurd h hm.coherent.loose.2.2) hm.right
  have hgrown : w.Le ⟨v, v', w.matching⟩ := ⟨hv, hv', .refl _⟩
  obtain rfl := pinScope_done hpin
  obtain rfl := pinScope_done hpin'
  refine ⟨⟨v, v', w.matching⟩, _, _, hgrown, hpin, hpin', ?_, hm.closure hw, hpinned, hpinned'⟩
  exact {
    left := hn
    right := hn'
    coherent := hm.coherent.mono hgrown rfl
    arena := hm.arena.congr (.pin _ _) (.pin _ _)
    calls := hm.calls
    nextId := hm.nextId
    lines := hm.lines }

theorem bindFunction_matched {name : Mark} {params : List Mark} {body : List Node}
    {closure closure' : Handle} (hw : w.Solid) (hm : Machine.Matched w m m')
    (htwin : (closure, closure') ∈ w.matching.twins) (hpinned : w.left.shape.Pinned closure)
    (hpinned' : w.right.shape.Pinned closure') :
    Outcome.Related upToHollow upToHollow.Halting upToHollow.values w
      (bindFunction settings name params body closure m)
      (bindFunction settings name params body closure' m') := by
  obtain ⟨hle, hfits⟩ := hm.left.declare
  obtain ⟨hle', hfits'⟩ := hm.right.declare
  set v : Sides := ⟨{ w.left with declared := w.left.declared + 1 },
    { w.right with declared := w.right.declared + 1 }, w.matching⟩
  have hgrown : w.Le v := ⟨hle, hle', .refl _⟩
  have hcounted : Machine.Matched v { m with nextId := m.nextId + 1 }
      { m' with nextId := m'.nextId + 1 } :=
    { hm with
      left := hfits
      right := hfits'
      coherent := hm.coherent.mono hgrown rfl
      nextId := congrArg (· + 1) hm.nextId }
  have hfunction : upToHollow.values v (.function ⟨m.nextId, name, params, body, closure⟩)
      (.function ⟨m'.nextId, name, params, body, closure'⟩) := by
    refine ⟨.function ⟨hm.nextId, rfl, rfl, rfl, htwin⟩, ?_, ?_⟩
    · rintro f hf
      cases hf
      exact ⟨hpinned, fun h => absurd h hm.coherent.loose.1.1⟩
    · rintro f hf
      cases hf
      exact ⟨hpinned', fun h => absurd h hm.coherent.loose.2.1⟩
  have hid (n : Machine) : (Effect.gets (·.nextId) : Effect Nat) n = .done n.nextId n := rfl
  have hnext (n : Machine) : Effect.modify (fun k => { k with nextId := n.nextId + 1 }) n
      = .done () { n with nextId := n.nextId + 1 } := rfl
  rw [bindFunction, bindFunction, Effect.bind_of_done (hid m), Effect.bind_of_done (hid m'),
    Effect.bind_of_done (hnext m), Effect.bind_of_done (hnext m')]
  refine .mono hgrown (Effect.Related.seq (defineHere_matched (hgrown.solid hw) hfunction) ?_ v
    (.refl v) _ _ hcounted)
  intro u _ _ _
  exact .seq (traceFrom_matched 2 settings _) fun z _ _ _ => .pure fun _ _ => .of_isScalar rfl

theorem declareFunction_matched (name : Mark) (params : List Mark) (body : List Node)
    (hw : w.Solid) :
    Effect.Related upToHollow upToHollow.Halting upToHollow.values w
      (declareFunction settings name params body) (declareFunction settings name params body) := by
  intro u hu m m' hm
  obtain ⟨v, n, n', huv, hpin, hpin', hn, htwin, hpinned, hpinned'⟩ :=
    pinClosure_matched (hu.solid hw) hm
  rw [declareFunction_of_pinned hpin, declareFunction_of_pinned hpin']
  exact .mono huv (bindFunction_matched (huv.solid (hu.solid hw)) hn htwin hpinned hpinned')

end LoxLang
