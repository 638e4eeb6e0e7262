/-
Nobody can tell whether scopes are reclaimed.

A machine that reclaims the scopes it leaves, and hands their slots out again, is compared with
one that keeps every scope.  Both run the same programs.  They print, trace and report the same
lines, come to the same ends, and their values are the same up to the handles of the scopes of
functions.

The two machines correspond by a renaming of handles (`Machine.Renamed`), which relates the
scopes that were entered and not left, and the ones that are pinned.  A function closes over a
pinned scope only.  So its scope, and all scopes around that one, are never given up.
-/
import LoxLang.Proofs.Machine.Control
import LoxLang.Proofs.Scope.Renaming

namespace LoxLang

/-! ### Values and machines up to renaming -/

/-- The same function, with the scope it was declared in renamed. -/
structure Function.Renamed (kept : List Twin) (f g : Function) : Prop where
  id : f.id = g.id
  name : f.name = g.name
  params : f.params = g.params
  body : f.body = g.body
  closure : (f.closure, g.closure) ∈ kept

theorem Function.Renamed.mono {kept kept' : List Twin} (hsub : kept ⊆ kept') {f g : Function}
    (h : f.Renamed kept g) : f.Renamed kept' g :=
  ⟨h.id, h.name, h.params, h.body, hsub h.closure⟩

/-- The same value, with the scopes of functions renamed. -/
inductive Value.Renamed (kept : List Twin) : Value → Value → Prop where
  | function {f g : Function} (h : f.Renamed kept g) : Renamed kept (.function f) (.function g)
  | same {v : Value} (h : ∀ f, v ≠ .function f) : Renamed kept v v

namespace Value.Renamed

variable {kept kept' : List Twin} {v w : Value}

theorem mono (hsub : kept ⊆ kept') (h : Renamed kept v w) : Renamed kept' v w := by
  cases h with
  | function h => exact .function (h.mono hsub)
  | same h => exact .same h

theorem unscoped_eq (h : Renamed kept v w) : v.unscoped = w.unscoped := by
  cases h with
  | @function f g h =>
    obtain ⟨id, name, params, body, closure⟩ := f
    obtain ⟨id', name', params', body', closure'⟩ := g
    obtain ⟨rfl, rfl, rfl, rfl, -⟩ := h
    rfl
  | same h => rfl

theorem of_isScalar (h : v.isScalar) : Renamed kept v v := by
  refine .same fun f hf => ?_
  subst hf
  cases h

end Value.Renamed

/-- The scopes that were entered and not left, and the ones that are kept for good. -/
structure Scopes where
  entered : List Twin
  kept : List Twin

/-- All scopes that matter. -/
def Scopes.all (w : Scopes) : List Twin := w.entered ++ w.kept

/-- The same machine, with scopes renamed. -/
structure Machine.Renamed (w : Scopes) (m m' : Machine) : Prop where
  arena : m.arena.Renamed (Value.Renamed w.kept) w.entered w.kept m'.arena
  current : (m.current, m'.current) ∈ w.all
  calls : List.Forall₂ (Function.Renamed w.kept) m.calls m'.calls
  nextId : m.nextId = m'.nextId
  printed : m.printed = m'.printed
  traced : m.traced = m'.traced
  reported : m.reported = m'.reported
  traceOpen : m.traceOpen = m'.traceOpen

/-- Machines correspond up to renaming.  More scopes may come to be kept for good; a scope that
is refused halts no run. -/
def upToRenaming : Correspondence where
  World := Scopes
  le v w := v.entered = w.entered ∧ v.kept ⊆ w.kept
  machines := Machine.Renamed
  values w := Value.Renamed w.kept
  halts why := ∀ r, why ≠ .broken (.scopes r)
  active _ := True
  le_refl _ := ⟨rfl, List.Subset.refl _⟩
  le_trans huv hvw := ⟨huv.1.trans hvw.1, List.Subset.trans huv.2 hvw.2⟩
  values_mono hvw h := h.mono hvw.2
  active_mono _ h := h

variable {w : upToRenaming.World}

theorem Scopes.all_subset {v : upToRenaming.World} (hvw : upToRenaming.le v w) : v.all ⊆ w.all := by
  obtain ⟨hentered, hkept⟩ := hvw
  intro x hx
  show x ∈ w.entered ++ w.kept
  rw [← hentered]
  rcases List.mem_append.mp hx with hx | hx
  · exact List.mem_append_left _ hx
  · exact List.mem_append_right _ (hkept hx)

/-! ### Lines -/

theorem print_renamed (line : String) : Effect.Related upToRenaming upToRenaming.Halting
    upToRenaming.Anything w (Effect.print line) (Effect.print line) :=
  .modify fun _ _ _ _ hm => { hm with printed := by rw [hm.printed] }

theorem report_renamed (line : String) : Effect.Related upToRenaming upToRenaming.Halting
    upToRenaming.Anything w (Effect.report line) (Effect.report line) :=
  .modify fun _ _ _ _ hm => { hm with reported := by rw [hm.reported] }

theorem trace_renamed (level : Nat) (line : String) : Effect.Related upToRenaming
    upToRenaming.Halting upToRenaming.Anything w (Effect.trace level line)
    (Effect.trace level line) := by
  refine .modify fun u _ m m' hm => ?_
  have hopen := hm.traceOpen
  by_cases hlevel : level = 0
  · rw [if_pos hlevel, if_pos hlevel]
    exact hm
  · rw [if_neg hlevel, if_neg hlevel]
    by_cases htrace : m.traceOpen = true
    · rw [if_pos htrace, if_pos (hopen ▸ htrace)]
      exact { hm with traced := by rw [hm.traced] }
    · rw [if_neg htrace, if_neg (hopen ▸ htrace)]
      exact { hm with printed := by rw [hm.printed] }

theorem traceFrom_renamed (least : Nat) (settings settings' : Settings) (line : String)
    (hlevel : settings.level = settings'.level) : Effect.Related upToRenaming
      upToRenaming.Halting upToRenaming.Anything w (traceFrom least settings line)
      (traceFrom least settings' line) := by
  rw [traceFrom, traceFrom, ← hlevel]
  split
  · exact trace_renamed _ line
  · exact .pure fun _ _ => trivial

/-! ### Effects on scopes -/

theorem key_renamed (name : Mark) : Effect.Related upToRenaming upToRenaming.Halting upToRenaming.Same w
    (Effect.key name) (Effect.key name) := by
  unfold Effect.key
  split
  · exact .pure fun _ _ => rfl
  · exact .halt (by simp [upToRenaming]) (by simp)

theorem current_renamed : Effect.Related upToRenaming upToRenaming.Halting
    (fun u h h' => (h, h') ∈ Scopes.all u) w (Effect.gets (·.current))
    (Effect.gets (·.current)) := .gets fun _ _ _ _ hm => hm.current

theorem define_renamed {name : Mark} {x : Twin} {a b : Value} (hx : x ∈ w.all)
    (hab : upToRenaming.values w a b) : Effect.Related upToRenaming upToRenaming.Halting upToRenaming.Anything w
      (Effect.define x.1 name a) (Effect.define x.2 name b) := by
  refine .bind (key_renamed name) ?_
  intro u hu k k' hk
  obtain rfl : k = k' := hk
  intro v hv m m' hm
  have hwv := upToRenaming.le_trans hu hv
  obtain ⟨c, c', hc, hc', harena⟩ := hm.arena.define (Scopes.all_subset hwv hx) k
    (upToRenaming.values_mono hwv hab)
  rw [Effect.onArena_of_ok hc, Effect.onArena_of_ok hc']
  exact .done (upToRenaming.le_refl v) { hm with arena := harena } trivial

theorem defineHere_renamed {name : Mark} {a b : Value} (hab : upToRenaming.values w a b) :
    Effect.Related upToRenaming upToRenaming.Halting upToRenaming.Anything w
      (Effect.defineHere name a) (Effect.defineHere name b) := by
  refine .bind current_renamed ?_
  intro u hu h h' hh
  exact define_renamed (x := (h, h')) hh (upToRenaming.values_mono hu hab)

theorem blaming_of_done {α : Type} {x : Effect α} {name : Mark} {m n : Machine} {a : α}
    (h : x m = .done a n) : Effect.blaming name x m = .done a n := by
  rw [Effect.blaming, h]

theorem blaming_of_unbound {α : Type} {x : Effect α} {name : Mark} {m n : Machine}
    (h : x m = .stopped (.broken (.scopes .unbound)) n) :
    Effect.blaming name x m
      = .stopped (.failed ⟨name, .undefinedVariable name.lexeme⟩) n := by
  rw [Effect.blaming, h]
  rfl

theorem lookUp_renamed (name : Mark) : Effect.Related upToRenaming upToRenaming.Halting upToRenaming.values w
    (Effect.lookUp name) (Effect.lookUp name) := by
  refine .bind (key_renamed name) ?_
  intro u hu k k' hk
  obtain rfl : k = k' := hk
  refine .bind current_renamed ?_
  intro v hv h h' hh z hz m m' hm
  have hx : (h, h') ∈ Scopes.all z := Scopes.all_subset hz hh
  obtain ⟨ha, hb⟩ | ⟨a, b, ha, hb, hab⟩ := hm.arena.get hx k
  · rw [blaming_of_unbound (Effect.onArena_of_error (by rw [ha])),
      blaming_of_unbound (Effect.onArena_of_error (by rw [hb]))]
    exact .stopped (upToRenaming.le_refl z) hm ⟨rfl, by simp [upToRenaming], by simp⟩
  · rw [blaming_of_done (Effect.onArena_of_ok (by rw [ha])),
      blaming_of_done (Effect.onArena_of_ok (by rw [hb]))]
    exact .done (upToRenaming.le_refl z) hm hab

theorem assign_renamed (name : Mark) {a b : Value} (hab : upToRenaming.values w a b) :
    Effect.Related upToRenaming upToRenaming.Halting upToRenaming.Anything w
      (Effect.assign name a) (Effect.assign name b) := by
  refine .bind (key_renamed name) ?_
  intro u hu k k' hk
  obtain rfl : k = k' := hk
  refine .bind current_renamed ?_
  intro v hv h h' hh z hz m m' hm
  have hx : (h, h') ∈ Scopes.all z := Scopes.all_subset hz hh
  have hab' := upToRenaming.values_mono (upToRenaming.le_trans hu (upToRenaming.le_trans hv hz)) hab
  obtain ⟨hc, hc'⟩ | ⟨c, c', hc, hc', harena⟩ := hm.arena.assign hx k hab'
  · rw [blaming_of_unbound (Effect.onArena_of_error hc),
      blaming_of_unbound (Effect.onArena_of_error hc')]
    exact .stopped (upToRenaming.le_refl z) hm ⟨rfl, by simp [upToRenaming], by simp⟩
  · rw [blaming_of_done (Effect.onArena_of_ok hc), blaming_of_done (Effect.onArena_of_ok hc')]
    exact .done (upToRenaming.le_refl z) { hm with arena := harena } trivial

/-- A scope that is pinned is kept from then on. -/
theorem pinScope_renamed {x : Twin} (hx : x ∈ w.all) :
    Effect.Related upToRenaming upToRenaming.Halting (fun u _ _ => x ∈ Scopes.kept u) w
      (Effect.pinScope x.1) (Effect.pinScope x.2) := by
  intro u hu m m' hm
  obtain ⟨l, c, c', hxl, hc, hc', harena⟩ := hm.arena.pin (Scopes.all_subset hu hx)
  -- More scopes are kept than before, and so what was alike stays alike.
  have hsub : u.kept ⊆ l ++ u.kept := List.subset_append_right l u.kept
  have hgrown : upToRenaming.le u ⟨u.entered, l ++ u.kept⟩ := ⟨rfl, hsub⟩
  have hmachines : Machine.Renamed ⟨u.entered, l ++ u.kept⟩ { m with arena := c }
      { m' with arena := c' } := by
    refine { hm with arena := harena.mono fun _ _ h => h.mono hsub, current := ?_, calls := ?_ }
    · exact Scopes.all_subset hgrown hm.current
    · exact hm.calls.imp fun _ _ h => h.mono hsub
  rw [Effect.pinScope, Effect.pinScope, Effect.onArena_of_ok hc, Effect.onArena_of_ok hc']
  exact .done hgrown hmachines (List.mem_append_left _ hxl)

theorem declareFunction_renamed (level maxCalls patience : Nat) (name : Mark)
    (params : List Mark) (body : List Node) :
    Effect.Related upToRenaming upToRenaming.Halting upToRenaming.values w
      (declareFunction ⟨level, true, maxCalls, patience⟩ name params body)
      (declareFunction ⟨level, false, maxCalls, patience⟩ name params body) := by
  have hclosure : Effect.Related upToRenaming upToRenaming.Halting
      (fun u h h' => (h, h') ∈ Scopes.all u) w (Effect.gets Machine.closure)
      (Effect.gets Machine.closure) := by
    refine .gets fun u _ m m' hm => ?_
    have hcalls := hm.calls
    unfold Machine.closure
    generalize m.calls = calls, m'.calls = calls' at hcalls
    -- The closure is the current scope outside all calls, and the one of the callee inside.
    cases hcalls with
    | nil => exact hm.current
    | cons hf _ => exact List.mem_append_right _ hf.closure
  rw [declareFunction_eq, declareFunction_eq]
  refine .bind hclosure ?_
  intro u hu h h' hh
  refine .bind (pinScope_renamed (x := (h, h')) hh) ?_
  intro v hv _ _ hkept
  refine .bind (.gets fun _ _ _ _ hm => hm.nextId : Effect.Related upToRenaming
    upToRenaming.Halting upToRenaming.Same v (Effect.gets (·.nextId)) _) ?_
  intro z hz id id' hid
  obtain rfl : id = id' := hid
  refine .seq (.modify fun _ _ _ _ hm => { hm with nextId := rfl }) ?_
  intro y hy _ _
  -- The closure was pinned first, so it is kept when the function is bound.
  have hkept' : (h, h') ∈ Scopes.kept y := (upToRenaming.le_trans hz hy).2 hkept
  refine .seq (defineHere_renamed (.function ⟨rfl, rfl, rfl, rfl, hkept'⟩)) ?_
  intro x _ _ _
  refine .seq (traceFrom_renamed 2 _ _ _ rfl) ?_
  intro _ _ _ _
  exact .pure fun _ _ => .of_isScalar rfl

/-! ### Scopes that are entered and left -/

variable {m m' : Machine}

/-- A scope made inside alike ones. -/
theorem push_renamed {x : Twin} (hm : upToRenaming.machines w m m') (hx : x ∈ w.all) :
    upToRenaming.machines
      ⟨((m.arena.push (some x.1)).2, (m'.arena.push (some x.2)).2) :: w.entered, w.kept⟩
      { m with arena := (m.arena.push (some x.1)).1 }
      { m' with arena := (m'.arena.push (some x.2)).1 } where
  arena := hm.arena.push hx
  current := List.mem_cons_of_mem _ hm.current
  calls := hm.calls
  nextId := hm.nextId
  printed := hm.printed
  traced := hm.traced
  reported := hm.reported
  traceOpen := hm.traceOpen

/-- A scope that is left is reclaimed on one side only. -/
theorem leaveScope_renamed (level maxCalls patience : Nat) {x z : Twin} (hx : x ∈ w.all)
    (hm : upToRenaming.machines ⟨z :: w.entered, w.kept⟩ m m') :
    Outcome.Related upToRenaming upToRenaming.Halting upToRenaming.Anything w
      (leaveScope ⟨level, true, maxCalls, patience⟩ x.1 z.1 m)
      (leaveScope ⟨level, false, maxCalls, patience⟩ x.2 z.2 m') := by
  -- Nothing is released on the second side: there the scope is merely forgotten.
  obtain ⟨c, hc, harena⟩ := hm.arena.release
  have hrelease : Effect.releaseScope z.1 { m with current := x.1 }
      = .done () { m with arena := c, current := x.1 } := Effect.onArena_of_ok hc
  rw [leaveScope_apply, leaveScope_apply, if_pos rfl, hrelease]
  exact .done (upToRenaming.le_refl w) { hm with arena := harena, current := hx } trivial

/-- Statements in a scope of their own, which was entered last.  `x` is the current scope
around it. -/
theorem executeIn_renamed {level maxCalls patience : Nat} {execute execute' : Node → Effect Value}
    {statements : List Node} {z : Twin} (hexecute : ∀ (u : upToRenaming.World) (e : Node),
      Effect.Related upToRenaming upToRenaming.Leaving upToRenaming.values u (execute e)
        (execute' e))
    (hm : upToRenaming.machines ⟨z :: w.entered, w.kept⟩ m m')
    (hcurrent : (m.current, m'.current) ∈ w.all) :
    Outcome.Related upToRenaming upToRenaming.Leaving upToRenaming.Anything w
      (executeIn ⟨level, true, maxCalls, patience⟩ execute statements z.1 m)
      (executeIn ⟨level, false, maxCalls, patience⟩ execute' statements z.2 m') := by
  have henter : upToRenaming.machines ⟨z :: w.entered, w.kept⟩ { m with current := z.1 }
      { m' with current := z.2 } := { hm with current := List.mem_cons_self .. }
  refine executeIn_related henter (executeAll_related fun e _ u _ => hexecute u e) ?_
  -- The statements have entered and left scopes in turn, and may have kept some.
  rintro ⟨entered, kept⟩ ⟨rfl, hkept⟩ n n' hn
  have hgrown : upToRenaming.le w ⟨w.entered, kept⟩ := ⟨rfl, hkept⟩
  refine ⟨⟨w.entered, kept⟩, hgrown, fun _ _ h => h, ?_⟩
  exact leaveScope_renamed level maxCalls patience (x := (m.current, m'.current))
    (Scopes.all_subset hgrown hcurrent) hn

theorem bindParameters_renamed {x : Twin} (hx : x ∈ w.all) (names : List Mark)
    {as bs : List Value} (hs : List.Forall₂ (upToRenaming.values w) as bs) :
    Effect.Related upToRenaming upToRenaming.Halting upToRenaming.Anything w
      (bindParameters x.1 names as) (bindParameters x.2 names bs) := by
  induction names generalizing w as bs with
  | nil => exact .pure fun _ _ => trivial
  | cons name names ih =>
    cases hs with
    | nil => exact .pure fun _ _ => trivial
    | cons hab hs =>
      refine .seq (define_renamed hx hab) ?_
      intro u hu _ _
      exact ih (Scopes.all_subset hu hx) (hs.imp fun _ _ => upToRenaming.values_mono hu)

/-- A call that is opened has entered one more scope, and its arguments are bound there.  Where
a parameter has no proper name the call is off. -/
theorem openCall_renamed {f f' : Function} {as bs : List Value}
    (hm : upToRenaming.machines w m m') (hf : f.Renamed w.kept f')
    (hs : List.Forall₂ (upToRenaming.values w) as bs) :
    (∃ (z : Twin) (kept : List Twin) (n n' : Machine), w.kept ⊆ kept ∧
      openCall f as m = .done z.1 n ∧ openCall f' bs m' = .done z.2 n' ∧
      n.current = m.current ∧ n'.current = m'.current ∧
      upToRenaming.machines ⟨z :: w.entered, kept⟩ n n') ∨
    ∃ (why : Stop) (kept : List Twin) (n n' : Machine), w.kept ⊆ kept ∧
      openCall f as m = .stopped why n ∧ openCall f' bs m' = .stopped why n' ∧
      upToRenaming.Halting w why why ∧ upToRenaming.machines ⟨w.entered, kept⟩ n n' := by
  have hx : (f.closure, f'.closure) ∈ w.all := List.mem_append_right _ hf.closure
  have hpush := push_renamed hm hx
  set z : Twin := ((m.arena.push (some f.closure)).2, (m'.arena.push (some f'.closure)).2)
  have hbind := bindParameters_renamed (w := ⟨z :: w.entered, w.kept⟩) (x := z)
    (List.mem_cons_self ..) f.params hs _ (upToRenaming.le_refl _) _ _ hpush
  rw [openCall, openCall, Effect.bind_of_done (Effect.pushScope_apply f.closure m),
    Effect.bind_of_done (Effect.pushScope_apply f'.closure m'), ← hf.params]
  obtain ⟨c, hc⟩ := bindParameters_onArena z.1 f.params as
    { m with arena := (m.arena.push (some f.closure)).1 }
  obtain ⟨c', hc'⟩ := bindParameters_onArena z.2 f.params bs
    { m' with arena := (m'.arena.push (some f'.closure)).1 }
  -- Both sides bind the same names, so they get through them all or stop at the same one.
  rcases hc with ⟨_, hc⟩ | ⟨why, hc, -⟩
  · rcases hc' with ⟨_, hc'⟩ | ⟨why', hc', -⟩
    · rw [hc, hc'] at hbind
      rw [Effect.bind_of_done hc, Effect.bind_of_done hc']
      cases hbind with
      | @done u _ _ _ _ grown machines _ =>
        obtain ⟨entered, kept⟩ := u
        obtain ⟨rfl, hkept⟩ := grown
        refine .inl ⟨z, kept, _, _, hkept, rfl, rfl, rfl, rfl, ?_⟩
        exact { machines with calls := .cons (hf.mono hkept) machines.calls }
    · rw [hc, hc'] at hbind
      cases hbind
  · rcases hc' with ⟨_, hc'⟩ | ⟨why', hc', -⟩
    · rw [hc, hc'] at hbind
      cases hbind
    · rw [hc, hc'] at hbind
      rw [Effect.bind_of_stopped hc, Effect.bind_of_stopped hc']
      cases hbind with
      | @stopped u _ _ _ _ grown machines ends =>
        obtain ⟨entered, kept⟩ := u
        obtain ⟨rfl, hkept⟩ := grown
        obtain ⟨rfl, hhalt⟩ := ends
        refine .inr ⟨why, kept, _, _, hkept, rfl, rfl, ⟨rfl, hhalt⟩, ?_⟩
        exact { machines with
          -- The scope that was made is not entered, and stays behind on both sides.
          arena := machines.arena.forget
          current := List.mem_append.mpr ((List.mem_append.mp hm.current).imp_right (hkept ·)) }

theorem runBody_renamed {level maxCalls patience : Nat} {execute execute' : Node → Effect Value}
    {f f' : Function} {as bs : List Value} (hexecute : ∀ (u : upToRenaming.World) (e : Node),
      Effect.Related upToRenaming upToRenaming.Leaving upToRenaming.values u (execute e)
        (execute' e))
    (hf : f.Renamed w.kept f') (hs : List.Forall₂ (upToRenaming.values w) as bs) :
    Effect.Related upToRenaming upToRenaming.Halting upToRenaming.values w
      (runBody ⟨level, true, maxCalls, patience⟩ execute f as)
      (runBody ⟨level, false, maxCalls, patience⟩ execute' f' bs) := by
  intro u hu m m' hm
  rw [runBody_eq, runBody_eq]
  have hopen := openCall_renamed hm (hf.mono hu.2)
    (hs.imp fun _ _ => upToRenaming.values_mono hu)
  obtain ⟨z, kept, n, n', hkept, hn, hn', hcurrent, hcurrent', hmachines⟩
    | ⟨why, kept, n, n', hkept, hn, hn', hhalt, hmachines⟩ := hopen
  all_goals have hgrown : upToRenaming.le u ⟨u.entered, kept⟩ := ⟨rfl, hkept⟩
  · rw [Effect.bind_of_done hn, Effect.bind_of_done hn', closeCall, closeCall, ← hf.body]
    have hcurrent : (n.current, n'.current) ∈ Scopes.all ⟨u.entered, kept⟩ := by
      rw [hcurrent, hcurrent']
      exact Scopes.all_subset hgrown hm.current
    refine .mono hgrown (closeCall_related (fun _ => .of_isScalar rfl)
      (executeIn_renamed hexecute hmachines hcurrent) ?_)
    intro v hv n n' hn
    refine ⟨v, hv, { hn with calls := ?_ }, fun _ _ h => h⟩
    have hcalls := hn.calls
    generalize n.calls = calls, n'.calls = calls' at hcalls ⊢
    cases hcalls with
    | nil => exact .nil
    | cons _ hrest => exact hrest
  · rw [Effect.bind_of_stopped hn, Effect.bind_of_stopped hn']
    exact .mono hgrown (.stopped (upToRenaming.le_refl _) hmachines hhalt)

/-! ### Reclaiming as a simulation -/

/-- A machine that reclaims scopes and one that does not keep up with each other. -/
def reclaimSimulation (level maxCalls patience : Nat) :
    Simulation ⟨level, true, maxCalls, patience⟩ ⟨level, false, maxCalls, patience⟩ where
  toCorrespondence := upToRenaming
  expression _ _ := True
  statement _ _ := True
  expression_mono _ _ := trivial
  statement_mono _ _ := trivial
  expression_operand _ _ := trivial
  statement_operand _ _ := trivial
  statement_branch _ _ _ := trivial
  maxCalls_eq := rfl
  calls_length hm := hm.calls.length_eq
  unscoped_eq h := h.unscoped_eq
  scalar h := .of_isScalar h
  literal {w j} _ := by
    refine .same fun f hf => ?_
    cases j <;> cases hf
  exhausted := by simp [upToRenaming]
  raises _ h := by cases h <;> simp [upToRenaming]
  notStatement _ _ := by simp [upToRenaming]
  topLevelReturn _ _ _ := by simp [upToRenaming]
  active_of_calls _ _ := trivial
  print := print_renamed
  report := report_renamed
  trace least line := traceFrom_renamed least _ _ line rfl
  lookUp {w name} _ := lookUp_renamed name
  assign {w name e a b} _ hab := assign_renamed name hab
  declare _ hab := defineHere_renamed hab
  declareFunction {w name params body} _ :=
    declareFunction_renamed level maxCalls patience name params body
  block {w execute execute' statements} hexecute _ := by
    intro u _ m m' hm
    rw [executeBlock_apply, executeBlock_apply]
    exact executeIn_renamed (fun v e => hexecute v e trivial)
      (push_renamed hm hm.current) hm.current
  body {w execute execute' f f' as bs} hexecute hf hs _ := by
    cases hf with
    | function hf => exact runBody_renamed (fun v e => hexecute v e trivial) hf hs
    | same h => exact absurd rfl (h f)

/-! ### Reclaiming is not observable -/

/-- The same end of a run, as far as anyone can tell: the same lines were written, and the
result is the same, or the reason for which there is none. -/
def Outcome.Alike (kept : List Twin) (x y : Outcome Completion) : Prop :=
  x.machine.printed = y.machine.printed ∧ x.machine.traced = y.machine.traced ∧
    x.machine.reported = y.machine.reported ∧
    match x, y with
    | .done r _, .done r' _ => r.syntaxErrors = r'.syntaxErrors ∧
        r.runtimeError = r'.runtimeError ∧ r.status = r'.status ∧ r.value.Renamed kept r'.value
    | .stopped why _, .stopped why' _ => why = why'
    | _, _ => False

theorem initial_renamed :
    Machine.Renamed ⟨[], [(Arena.globals, Arena.globals)]⟩ .initial .initial where
  arena := .initial
  current := by simp [Scopes.all, Machine.initial]
  calls := .nil
  nextId := rfl
  printed := rfl
  traced := rfl
  reported := rfl
  traceOpen := rfl

/-- The runs of a session, on a machine that reclaims scopes and on one that does not. -/
theorem session_renamed (level maxCalls patience : Nat) (requests : List Request) :
    ∃ v : Scopes, OneToOne v.kept ∧
      List.Forall₂ ((reclaimSimulation level maxCalls patience).Met v)
        (session ⟨level, true, maxCalls, patience⟩ requests .initial)
        (session ⟨level, false, maxCalls, patience⟩ requests .initial) := by
  have hbroken : (reclaimSimulation level maxCalls patience).halts (.broken .program) := by
    simp [reclaimSimulation, upToRenaming]
  obtain ⟨v, -, ⟨n, n', hn⟩, h⟩ := (reclaimSimulation level maxCalls patience).session rfl
    initial_renamed fun u _ r (_ : r ∈ requests) =>
      Simulation.admits_of_statement (fun _ _ => trivial) hbroken u r
  refine ⟨v, fun x hx y hy => ?_, h⟩
  exact hn.arena.oneToOne x (List.mem_append_right _ hx) y (List.mem_append_right _ hy)

/-- On a machine that reclaims scopes, no operation on scopes is refused. -/
theorem session_not_refused (level maxCalls patience : Nat) (requests : List Request) :
    ∀ outcome ∈ session ⟨level, true, maxCalls, patience⟩ requests .initial, ∀ r n,
      outcome ≠ .stopped (.broken (.scopes r)) n := by
  obtain ⟨v, -, h⟩ := session_renamed level maxCalls patience requests
  have hrefused : List.Forall₂ (fun x _ => (∀ r n, x ≠ .stopped (.broken (.scopes r)) n) ∧ True)
      (session ⟨level, true, maxCalls, patience⟩ requests .initial)
      (session ⟨level, false, maxCalls, patience⟩ requests .initial) := by
    refine h.imp ?_
    rintro x y hxy
    refine ⟨?_, trivial⟩
    rintro r n rfl
    cases hxy with
    | stopped _ _ ends =>
      -- No operation is refused on the side that keeps all scopes, and stops are the same.
      rcases ends with ⟨-, hhalts, -⟩ | ⟨a, b, heq, -⟩
      · exact hhalts r rfl
      · cases heq
  exact ((List.forall₂_and_left _ _).mp hrefused).1

/-- Reclaiming scopes is not observable.  However many programs are run, one after the other,
and whatever they are, a machine that reclaims the scopes it leaves and one that does not, and
so makes a new slot for every scope, come to the same ends, up to a renaming of the scopes that
functions were declared in. -/
theorem reclaiming_not_observable (level maxCalls patience : Nat) (requests : List Request) :
    (∃ kept, OneToOne kept ∧ List.Forall₂ (Outcome.Alike kept)
      (session ⟨level, true, maxCalls, patience⟩ requests .initial)
      (session ⟨level, false, maxCalls, patience⟩ requests .initial)) ∧
    ∀ outcome ∈ session ⟨level, false, maxCalls, patience⟩ requests .initial,
      outcome.machine.arena.vacant = [] := by
  obtain ⟨v, hone, h⟩ := session_renamed level maxCalls patience requests
  have hback : ∀ outcome ∈ session ⟨level, true, maxCalls, patience⟩ requests .initial,
      ¬outcome.GivesBack := by
    intro outcome houtcome hback
    exact (session_control _ requests _ outcome houtcome).2.2 hback rfl
  constructor
  · refine ⟨v.kept, hone, ?_⟩
    refine ((List.forall₂_and_left _ _).mpr ⟨hback, h⟩).imp ?_
    rintro x y ⟨hnot, hxy⟩
    cases hxy with
    | @done u r r' n n' _ machines ends =>
      obtain ⟨herrors, hruntime, -, hvalue⟩ := ends
      refine ⟨machines.printed, machines.traced, machines.reported, herrors, hruntime, ?_, hvalue⟩
      rw [Completion.status, Completion.status, herrors, hruntime]
    | @stopped u why why' n n' _ machines ends =>
      refine ⟨machines.printed, machines.traced, machines.reported, ?_⟩
      rcases ends with ⟨hwhy, -, -⟩ | ⟨a, b, rfl, -, -, -⟩
      · exact hwhy
      · exact absurd trivial hnot
  -- It is part of being alike that the second arena has no vacant slot.
  · have hkeeps : List.Forall₂ (fun y _ => y.machine.arena.vacant = [] ∧ True)
        (session ⟨level, false, maxCalls, patience⟩ requests .initial)
        (session ⟨level, true, maxCalls, patience⟩ requests .initial) := by
      refine .flip (h.imp ?_)
      intro x y hxy
      cases hxy with
      | done _ machines _ => exact ⟨machines.arena.vacant, trivial⟩
      | stopped _ machines _ => exact ⟨machines.arena.vacant, trivial⟩
    exact ((List.forall₂_and_left _ _).mp hkeeps).1

end LoxLang
