/-
Where a running machine has its scopes.

A `Layout` says which scopes a run has entered and not left, and which shape its arena has.  A
machine fits a layout (`Machine.Fits`) if its current scope and its calls are those of the frames,
if the shape is proper for them, if every function that it holds closes over a pinned scope, and
if the scope of each call binds the parameters of its function.  While a machine runs, its layout
changes only so far (`Layout.Le`): scopes stay where they are, and while a call is under way none
is pinned.  Where all parameters are names, the shape is then exactly as before.

That a machine goes on to fit a layout is a simulation of the evaluator by itself
(`layoutSimulation`).
-/
import LoxLang.Proofs.Machine.Session
import LoxLang.Proofs.Scope.Frames
import LoxLang.Proofs.Tree.Parameters

namespace LoxLang

/-! ### Layouts -/

/-- All parameters of the function, and of the functions in its body, are names. -/
structure Function.NamesParameters (f : Function) : Prop where
  params : ∀ m ∈ f.params, m.IsName
  body : ∀ e ∈ f.body, e.NamesParameters

/-- Where a machine has its scopes, with the calls that are under way and the number of functions
that have been declared.  `named` says that all parameters are names, and `still` that nothing is
said about statements outside all calls. -/
structure Layout where
  frames : Frames
  shape : Shape
  calls : List Function
  declared : Nat
  named : Prop
  still : Prop

namespace Layout

/-- No scope is pinned as long as the machine runs in this layout. -/
def Calm (w : Layout) : Prop := w.still ∨ w.calls ≠ []

/-- What becomes of a layout while the machine runs. -/
structure Le (v w : Layout) : Prop where
  frames : w.frames = v.frames
  calls : w.calls = v.calls
  named : w.named = v.named
  still : w.still = v.still
  declared : v.declared ≤ w.declared
  persists : v.shape.Persists w.shape
  calm : v.Calm → ∀ h, w.shape.Pinned h → v.shape.Pinned h
  exact : v.Calm → v.named → w.shape = v.shape

variable {u v w : Layout}

theorem Le.calm_iff (h : Le v w) : w.Calm ↔ v.Calm := by
  rw [Calm, Calm, h.still, h.calls]

theorem Le.refl (w : Layout) : Le w w :=
  ⟨rfl, rfl, rfl, rfl, Nat.le_refl _, .refl _, fun _ _ h => h, fun _ _ => rfl⟩

theorem Le.trans (huv : Le u v) (hvw : Le v w) : Le u w where
  frames := hvw.frames.trans huv.frames
  calls := hvw.calls.trans huv.calls
  named := hvw.named.trans huv.named
  still := hvw.still.trans huv.still
  declared := huv.declared.trans hvw.declared
  persists := huv.persists.trans hvw.persists
  calm hu h hh := huv.calm hu h (hvw.calm (huv.calm_iff.mpr hu) h hh)
  exact hu hnamed := by
    rw [hvw.exact (huv.calm_iff.mpr hu) (huv.named ▸ hnamed), huv.exact hu hnamed]

end Layout

/-- If the value is a function, it closes over a pinned scope. -/
def Value.Fits (w : Layout) (v : Value) : Prop :=
  ∀ f, v = .function f → w.shape.Pinned f.closure ∧ (w.named → f.NamesParameters)

theorem Value.Fits.mono {v w : Layout} (hvw : v.Le w) {a : Value} (ha : a.Fits v) : a.Fits w := by
  rintro f rfl
  obtain ⟨hpinned, hnamed⟩ := ha f rfl
  exact ⟨hvw.persists.pinned hpinned, fun h => hnamed (hvw.named ▸ h)⟩

theorem Value.Fits.of_ne {w : Layout} {a : Value} (ha : ∀ f, a ≠ .function f) : a.Fits w :=
  fun f hf => absurd hf (ha f)

/-- The machine has its scopes where the layout says. -/
structure Machine.Fits (w : Layout) (m : Machine) : Prop where
  tidy : m.arena.Tidy
  shape : m.arena.shape = w.shape
  proper : w.shape.Proper w.frames
  tight : w.named → w.shape.Tight w.frames
  current : m.current = w.frames.current
  calls : m.calls = w.calls
  declared : m.nextId = w.declared
  outside : w.calls = [] → w.frames.calls = []
  functions : ∀ f ∈ w.calls, w.shape.Pinned f.closure
  values : m.arena.Holds (Value.Fits w)
  bound : ∀ f s, .call f s ∈ w.frames → ∀ p ∈ f.params, ∀ k ∈ Key.ofName? p.lexeme,
    m.arena.bindsAt k s

/-- Machines correspond when they are the same and fit a layout. -/
def layout : Correspondence where
  World := Layout
  le := Layout.Le
  machines w m m' := m = m' ∧ m.Fits w
  values w a b := a = b ∧ a.Fits w
  halts _ := True
  active _ := True
  le_refl := Layout.Le.refl
  le_trans := Layout.Le.trans
  values_mono hvw h := ⟨h.1, h.2.mono hvw⟩
  active_mono _ h := h

/-! ### Effects that change bindings only -/

/-- The effect leaves the scopes of the arena as they are, and binds more at most. -/
def Effect.Rebinds {α : Type} (P : Value → Prop) (x : Effect α) : Prop :=
  ∀ m, Arena.Rebound P m.arena (x m).machine.arena

namespace Effect.Rebinds

variable {α β : Type} {P : Value → Prop}

theorem pure (a : α) : Rebinds P (Pure.pure a : Effect α) := fun m => .refl m.arena

theorem gets (f : Machine → α) : Rebinds P (Effect.gets f) := fun m => .refl m.arena

theorem bind {x : Effect α} {f : α → Effect β} (hx : Rebinds P x) (hf : ∀ a, Rebinds P (f a)) :
    Rebinds P (x >>= f) := by
  intro m
  have hm := hx m
  cases h : x m with
  | done a n =>
    rw [h] at hm
    rw [bind_of_done h]
    exact hm.trans (hf a n)
  | stopped why n =>
    rw [h] at hm
    rw [bind_of_stopped h]
    exact hm

theorem modify {f : Machine → Machine} (hf : ∀ m, (f m).arena = m.arena) :
    Rebinds P (Effect.modify f) := by
  intro m
  show Arena.Rebound P m.arena (f m).arena
  rw [hf]
  exact .refl m.arena

theorem trace (level : Nat) (line : String) : Rebinds P (Effect.trace level line) := by
  refine .modify fun m => ?_
  split
  · rfl
  · split <;> rfl

theorem traceFrom (least : Nat) (settings : Settings) (line : String) :
    Rebinds P (LoxLang.traceFrom least settings line) := by
  rw [LoxLang.traceFrom]
  split
  · exact .trace _ line
  · exact .pure ()

theorem key (name : Mark) : Rebinds P (Effect.key name) := by
  unfold Effect.key
  split
  · exact .pure _
  · exact fun m => .refl m.arena

theorem onArena {f : Arena Key Value → Arena Key Value × Except Refusal α}
    (hf : ∀ a, Arena.Rebound P a (f a).1) : Rebinds P (Effect.onArena f) := by
  intro m
  have hm := hf m.arena
  rcases h : f m.arena with ⟨arena, r | a⟩
  · rw [h] at hm
    rw [onArena_of_error h]
    exact hm
  · rw [h] at hm
    rw [onArena_of_ok h]
    exact hm

theorem blaming (name : Mark) {x : Effect α} (hx : Rebinds P x) :
    Rebinds P (Effect.blaming name x) := by
  intro m
  have hm := hx m
  rw [Effect.blaming]
  split
  · rename_i h
    rw [h] at hm
    exact hm
  · exact hm

end Effect.Rebinds

section

variable {P : Value → Prop} {v : Value}

theorem lookUp_rebinds (name : Mark) : (Effect.lookUp name).Rebinds P :=
  .bind (.key name) fun _ => .bind (.gets _) fun _ => .blaming name (.onArena fun a => .refl a)

theorem assign_rebinds (name : Mark) (hv : P v) : (Effect.assign name v).Rebinds P :=
  .bind (.key name) fun k => .bind (.gets _) fun h =>
    .blaming name (.onArena fun a => .assign a h k hv)

theorem define_rebinds (scope : Handle) (name : Mark) (hv : P v) :
    (Effect.define scope name v).Rebinds P :=
  .bind (.key name) fun k => .onArena fun a => .define a scope k hv

theorem defineHere_rebinds (name : Mark) (hv : P v) : (Effect.defineHere name v).Rebinds P :=
  .bind (.gets _) fun h => define_rebinds h name hv

theorem bindParameters_rebinds (scope : Handle) (names : List Mark) (values : List Value)
    (hvalues : ∀ v ∈ values, P v) : (bindParameters scope names values).Rebinds P := by
  induction names generalizing values with
  | nil => exact .pure ()
  | cons name names ih =>
    cases values with
    | nil => exact .pure ()
    | cons v values =>
      obtain ⟨hv, hvalues⟩ := List.forall_mem_cons.mp hvalues
      exact .bind (define_rebinds scope name hv) fun _ => ih values hvalues

end

/-! ### Effects that leave the layout as it is -/

variable {w : Layout} {m : Machine}

theorem Machine.Fits.rebound (hm : m.Fits w) {arena : Arena Key Value}
    (h : Arena.Rebound (Value.Fits w) m.arena arena) :
    ({ m with arena := arena } : Machine).Fits w where
  tidy := h.tidy hm.tidy
  shape := h.shape.trans hm.shape
  proper := hm.proper
  tight := hm.tight
  current := hm.current
  calls := hm.calls
  declared := hm.declared
  outside := hm.outside
  functions := hm.functions
  values := h.holds hm.values
  bound f s hs p hp k hk := h.bindsAt k s (hm.bound f s hs p hp k hk)

theorem layout_machines {u : layout.World} {m m' : Machine} (h : layout.machines u m m') :
    m = m' := h.1

/-- Lines make no difference. -/
theorem modify_fits {f : Machine → Machine} (harena : ∀ m, (f m).arena = m.arena)
    (hcurrent : ∀ m, (f m).current = m.current) (hcalls : ∀ m, (f m).calls = m.calls)
    (hdeclared : ∀ m, (f m).nextId = m.nextId) :
    Effect.Related layout layout.Halting layout.Anything w (Effect.modify f)
      (Effect.modify f) := by
  refine .modify ?_
  rintro u - m m' ⟨rfl, hm⟩
  refine ⟨rfl, ?_⟩
  obtain ⟨htidy, hshape, hproper, htight, hcur, hc, hd, houtside, hfunctions, hvalues, hbound⟩ := hm
  rw [← harena m] at htidy hshape hvalues hbound
  exact ⟨htidy, hshape, hproper, htight, (hcurrent m).trans hcur, (hcalls m).trans hc,
    (hdeclared m).trans hd, houtside, hfunctions, hvalues, hbound⟩

theorem traceFrom_fits (least : Nat) (settings : Settings) (line : String) :
    Effect.Related layout layout.Halting layout.Anything w (traceFrom least settings line)
      (traceFrom least settings line) := by
  rw [traceFrom]
  split
  · refine modify_fits (fun m => ?_) (fun m => ?_) (fun m => ?_) fun m => ?_
    all_goals
      split
      · rfl
      · split <;> rfl
  · exact .pure fun _ _ => trivial

/-- Bindings make no difference. -/
theorem rebinds_fits {α : Type} {x : Effect α} {P : layout.World → α → Prop} (hx : x.OnArena)
    (hrebinds : ∀ u, w.Le u → x.Rebinds (Value.Fits u))
    (hresult : ∀ u, w.Le u → ∀ m : Machine, m.Fits u → ∀ a n, x m = .done a n → P u a) :
    Effect.Related layout layout.Halting (fun u a b => a = b ∧ P u a) w x x := by
  refine .diagonal (fun _ _ _ => layout_machines) ?_
  rintro u hu m ⟨-, hm⟩
  obtain ⟨arena, ⟨a, h⟩ | ⟨why, h, hwhy⟩⟩ := hx m
  all_goals
    have hn := hrebinds u hu m
    rw [h] at hn
    rw [h]
  · exact .done (.refl u) ⟨rfl, hm.rebound hn⟩ ⟨rfl, hresult u hu m hm a _ h⟩
  · exact .stopped (.refl u) ⟨rfl, hm.rebound hn⟩ ⟨rfl, trivial, hwhy⟩

/-- A value that is looked up is one that the arena holds. -/
theorem fits_of_lookUp {name : Mark} {v : Value} {n : Machine} (hm : m.Fits w)
    (h : Effect.lookUp name m = .done v n) : v.Fits w := by
  rw [Effect.lookUp, Effect.key] at h
  split at h
  · rename_i k hk
    have hget : Effect.blaming name (Effect.onArena fun a => (a, a.get m.current k)) m
        = .done v n := h
    rw [Effect.blaming] at hget
    rcases hvalue : m.arena.get m.current k with r | a
    · have hstop : Effect.onArena (fun a => (a, a.get m.current k)) m
          = .stopped (.broken (.scopes r)) m :=
        Effect.onArena_of_error (Prod.ext rfl hvalue)
      rw [hstop] at hget
      split at hget
      · cases hget
      · cases hget
    · have hdone : Effect.onArena (fun a => (a, a.get m.current k)) m = .done a m :=
        Effect.onArena_of_ok (Prod.ext rfl hvalue)
      rw [hdone] at hget
      cases hget
      exact hm.values.get hvalue
  · cases h

theorem lookUp_fits (name : Mark) : Effect.Related layout layout.Halting layout.values w
    (Effect.lookUp name) (Effect.lookUp name) :=
  rebinds_fits (lookUp_onArena name) (fun _ _ => lookUp_rebinds name)
    fun _ _ _ hm _ _ h => fits_of_lookUp hm h

theorem assign_fits (name : Mark) {v : Value} (hv : v.Fits w) :
    Effect.Related layout layout.Halting layout.Anything w (Effect.assign name v)
      (Effect.assign name v) :=
  (rebinds_fits (P := fun _ _ => True) (assign_onArena name v)
    (fun _ hu => assign_rebinds name (hv.mono hu)) fun _ _ _ _ _ _ _ => trivial).anything

theorem defineHere_fits (name : Mark) {v : Value} (hv : v.Fits w) :
    Effect.Related layout layout.Halting layout.Anything w (Effect.defineHere name v)
      (Effect.defineHere name v) :=
  (rebinds_fits (P := fun _ _ => True) (defineHere_onArena name v)
    (fun _ hu => defineHere_rebinds name (hv.mono hu)) fun _ _ _ _ _ _ _ => trivial).anything

/-! ### Declaring a function -/

/-- The scope that a function declared now closes over. -/
theorem Machine.Fits.closure_cases (hm : m.Fits w) :
    (w.calls = [] ∧ m.closure = w.frames.current) ∨
      (w.calls ≠ [] ∧ w.shape.Pinned m.closure) := by
  rw [Machine.closure, hm.calls]
  cases h : w.calls with
  | nil => exact .inl ⟨rfl, hm.current⟩
  | cons f fs => exact .inr ⟨by simp, hm.functions f (by simp [h])⟩

/-- Pinning a scope from which there is a way outwards. -/
theorem Machine.Fits.pinScope (hm : m.Fits w) {h : Handle} {l : List Handle}
    (hl : w.shape.Chain h l) (hnodup : l.Nodup) :
    ∃ arena, Effect.pinScope h m = .done () { m with arena := arena } ∧
      Arena.Pinned l m.arena arena ∧ arena.shape = w.shape.pin l ∧
      arena.Holds (Value.Fits w) := by
  have hout : m.arena.Outward h l := Arena.outward_of_chain (hm.shape ▸ hl)
  have hclosed : m.arena.PinnedOutwards l := by
    intro g hg s hs hpinned p hp t ht
    obtain ⟨k, hk, -, hall⟩ := hm.proper.pinned g
      (hm.shape ▸ Arena.pinned_shape_iff.mpr ⟨s, hs, hpinned⟩)
    -- The scope around a pinned one is on the way outwards from it.
    have hmem : p ∈ k := (Arena.outward_of_chain (hm.shape ▸ hk)).parent_mem hk.head_mem hs hp
    obtain ⟨t', ht', hpinned'⟩ := Arena.pinned_shape_iff.mp (hm.shape.symm ▸ hall p hmem)
    rwa [Arena.scope_unique ht ht']
  obtain ⟨arena, hpin, hpinned⟩ := hout.pin hnodup hclosed
  refine ⟨arena, Effect.onArena_of_ok hpin, hpinned, ?_, ?_⟩
  · rw [hpinned.shape fun g hg => hm.shape.symm ▸ hl.isSome_of_mem hg, hm.shape]
  · have hvalues := hm.values.pin h
    rwa [hpin] at hvalues

/-- Pinning the scope that a function declared now closes over. -/
theorem pinClosure_fits (hcalm : w.still → w.calls ≠ []) (hm : m.Fits w) :
    ∃ v n, w.Le v ∧ Effect.pinScope m.closure m = .done () n ∧ n.Fits v ∧
      v.shape.Pinned m.closure ∧
      (w.calls = [] → v.shape = w.shape.pin (w.frames.scopes ++ [Arena.globals])) := by
  obtain ⟨hnone, hclosure⟩ | ⟨hsome, hpinned⟩ := hm.closure_cases
  · have hnone' : w.frames.calls = [] := hm.outside hnone
    set l := w.frames.scopes ++ [Arena.globals]
    have hchain : w.shape.Chain m.closure l := hclosure ▸ hm.proper.chain_outside hnone'
    obtain ⟨arena, hpin, hpinned, hshape, hvalues⟩ := hm.pinScope hchain hm.proper.nodup_outside
    have hlive : ∀ g ∈ l, (w.shape g).isSome := fun g hg => hchain.isSome_of_mem hg
    have hnot : ¬w.Calm := by
      rintro (hstill | hne)
      · exact hcalm hstill hnone
      · exact hne hnone
    have hle : w.Le { w with shape := w.shape.pin l } :=
      ⟨rfl, rfl, rfl, rfl, Nat.le_refl _, .pin _ l, fun h => absurd h hnot, fun h => absurd h hnot⟩
    refine ⟨{ w with shape := w.shape.pin l }, _, hle, hpin, ?_, ?_, fun _ => rfl⟩
    · exact {
        tidy := hpinned.tidy hm.tidy fun g hg =>
          Arena.isSome_shape_iff.mp (hm.shape.symm ▸ hlive g hg)
        shape := hshape
        proper := hm.proper.pin hnone'
        tight := fun hnamed => (hm.tight hnamed).pin l
        current := hm.current
        calls := hm.calls
        declared := hm.declared
        outside := hm.outside
        functions := fun f hf => hle.persists.pinned (hm.functions f hf)
        values := fun a ha => (hvalues a ha).mono hle
        bound := fun f s hs p hp k hk => hpinned.bindsAt (hm.bound f s hs p hp k hk) }
    · exact (Shape.pinned_pin_iff hlive).mpr (.inr hchain.head_mem)
  · obtain ⟨l, hl, hnodup, hall⟩ := hm.proper.pinned _ hpinned
    obtain ⟨arena, hpin, hpinned', hshape, hvalues⟩ := hm.pinScope hl hnodup
    -- The scopes that the function closes over are pinned already.
    rw [Shape.pin_of_pinned hall] at hshape
    refine ⟨w, _, .refl w, hpin, ?_, hpinned, fun h => absurd h hsome⟩
    exact {
      tidy := hpinned'.tidy hm.tidy fun g hg =>
        Arena.isSome_shape_iff.mp (hm.shape.symm ▸ hl.isSome_of_mem hg)
      shape := hshape
      proper := hm.proper
      tight := hm.tight
      current := hm.current
      calls := hm.calls
      declared := hm.declared
      outside := hm.outside
      functions := hm.functions
      values := hvalues
      bound := fun f s hs p hp k hk => hpinned'.bindsAt (hm.bound f s hs p hp k hk) }

/-- One more function is declared. -/
theorem Machine.Fits.declare (hm : m.Fits w) :
    w.Le { w with declared := w.declared + 1 } ∧
      ({ m with nextId := m.nextId + 1 } : Machine).Fits { w with declared := w.declared + 1 } := by
  refine ⟨⟨rfl, rfl, rfl, rfl, Nat.le_succ _, .refl _, fun _ _ h => h, fun _ _ => rfl⟩, ?_⟩
  exact ⟨hm.tidy, hm.shape, hm.proper, hm.tight, hm.current, hm.calls,
    congrArg (· + 1) hm.declared, hm.outside, hm.functions, hm.values, hm.bound⟩

/-- What is left to do for a function that is declared when its scope has been pinned. -/
def bindFunction (settings : Settings) (name : Mark) (params : List Mark) (body : List Node)
    (closure : Handle) : Effect Value :=
  Effect.gets (·.nextId) >>= fun id =>
    Effect.modify (fun m => { m with nextId := id + 1 }) >>= fun _ =>
      Effect.defineHere name (.function ⟨id, name, params, body, closure⟩) >>= fun _ =>
        traceFrom 2 settings ("define function " ++ name.lexeme.shown) >>= fun _ => pure .nil

section

variable {settings : Settings} {name : Mark} {params : List Mark} {body : List Node}

theorem declareFunction_of_pinned {n : Machine}
    (hpin : Effect.pinScope m.closure m = .done () n) :
    declareFunction settings name params body m
      = bindFunction settings name params body m.closure n := by
  have hclosure : Effect.gets Machine.closure m = .done m.closure m := rfl
  rw [declareFunction_eq, Effect.bind_of_done hclosure, Effect.bind_of_done hpin]
  rfl

theorem bindFunction_fits {closure : Handle} (hm : m.Fits w) (hpinned : w.shape.Pinned closure)
    (hnamed : w.named → (Node.function name params body).NamesParameters) :
    Outcome.Related layout layout.Halting layout.values { w with declared := w.declared + 1 }
      (bindFunction settings name params body closure m)
      (bindFunction settings name params body closure m) := by
  have hid : (Effect.gets (·.nextId) : Effect Nat) m = .done m.nextId m := rfl
  have hnext : Effect.modify (fun n => { n with nextId := m.nextId + 1 }) m
      = .done () { m with nextId := m.nextId + 1 } := rfl
  have hfunction : (Value.function ⟨m.nextId, name, params, body, closure⟩).Fits
      { w with declared := w.declared + 1 } := by
    rintro f hf
    cases hf
    exact ⟨hpinned, fun h => ⟨(hnamed h).isName_of_mem, fun e he => (hnamed h).of_mem_body he⟩⟩
  rw [bindFunction, Effect.bind_of_done hid, Effect.bind_of_done hnext]
  refine Effect.Related.seq (defineHere_fits name hfunction) ?_ _ (.refl _) _ _ ⟨rfl, hm.declare.2⟩
  intro u _ _ _
  exact .seq (traceFrom_fits 2 settings _) fun v _ _ _ => .pure fun _ _ => ⟨rfl, .of_ne (by simp)⟩

theorem declareFunction_fits (hcalm : w.still → w.calls ≠ [])
    (hnamed : w.named → (Node.function name params body).NamesParameters) :
    Effect.Related layout layout.Halting layout.values w
      (declareFunction settings name params body) (declareFunction settings name params body) := by
  rintro u hu m m' ⟨rfl, hm⟩
  have hcalm' : u.still → u.calls ≠ [] := by
    rw [hu.still, hu.calls]
    exact hcalm
  obtain ⟨v, n, huv, hpin, hn, hpinned, -⟩ := pinClosure_fits hcalm' hm
  rw [declareFunction_of_pinned hpin]
  refine .mono (huv.trans hn.declare.1) (bindFunction_fits hn hpinned ?_)
  rwa [huv.named, hu.named]

end

/-! ### Scopes that are entered and left -/

variable {settings : Settings} {execute execute' : Node → Effect Value}

/-- The layout in which a scope has been entered. -/
def Layout.enter (w : Layout) (frame : Frame) (p : Handle) : Layout :=
  { w with frames := frame :: w.frames, shape := w.shape.push frame.scope p }

/-- The shape when a scope has been left: the scope is given up, unless it has been pinned. -/
def Shape.LeftBy (σ : Shape) (s : Handle) (τ : Shape) : Prop :=
  σ.Pinned s ∧ τ = σ ∨ ¬σ.Pinned s ∧ τ = σ.free s

/-- What is pinned stays when a scope is left. -/
theorem Shape.LeftBy.pinned_iff {σ τ : Shape} {s h : Handle} (hτ : σ.LeftBy s τ) :
    τ.Pinned h ↔ σ.Pinned h := by
  obtain ⟨-, rfl⟩ | ⟨hs, rfl⟩ := hτ
  · exact Iff.rfl
  by_cases hh : h = s
  · subst hh
    refine iff_of_false ?_ hs
    rintro ⟨x, hx⟩
    rw [free, if_pos rfl] at hx
    cases hx
  · rw [Pinned, free_of_ne hh]
    exact Iff.rfl

/-- No function closes over a scope that is given up, as that is not pinned. -/
theorem Value.Fits.leave {u : Layout} {s : Handle} {τ : Shape} (hτ : u.shape.LeftBy s τ)
    (frames : Frames) {a : Value} (ha : a.Fits u) :
    a.Fits { u with frames := frames, shape := τ } := by
  rintro f rfl
  obtain ⟨hpinned, hnamed⟩ := ha f rfl
  exact ⟨hτ.pinned_iff.mpr hpinned, hnamed⟩

/-- A scope that is left is given up, unless it has been pinned. -/
theorem Machine.Fits.leave {u : Layout} (hm : m.Fits u) (hreclaim : settings.reclaim = true)
    {frame : Frame} {frames : Frames} (hframes : u.frames = frame :: frames) :
    ∃ τ n, u.shape.LeftBy frame.scope τ ∧
      leaveScope settings frames.current frame.scope m = .done () n ∧
      n.Fits { u with frames := frames, shape := τ } := by
  have hproper := hm.proper
  rw [hframes] at hproper
  obtain ⟨q, b, hq⟩ := hproper.nested.scope_of_mem (s := frame.scope) List.mem_cons_self
  obtain ⟨s, hs, -, hpinned⟩ := Arena.shape_eq_some.mp (by rw [hm.shape]; exact hq)
  have hleave : leaveScope settings frames.current frame.scope m
      = .done () { m with
          arena := if s.pinned then m.arena else m.arena.free frame.scope
          current := frames.current } := by
    rw [leaveScope_apply, if_pos hreclaim]
    exact Effect.onArena_of_ok (by simp only [Arena.release, hs])
  have houtside : u.calls = [] → Frames.calls frames = [] := by
    intro h
    have hnone := hm.outside h
    rw [hframes, Frames.calls, List.filterMap_cons] at hnone
    split at hnone
    · exact hnone
    · cases hnone
  have hbound : ∀ f t, .call f t ∈ frames → ∀ p ∈ f.params, ∀ k ∈ Key.ofName? p.lexeme,
      m.arena.bindsAt k t := by
    intro f t ht
    exact hm.bound f t (by rw [hframes]; exact List.mem_cons_of_mem _ ht)
  rw [hleave]
  cases b with
  | true =>
    have hpinned' : u.shape.Pinned frame.scope := ⟨_, hq⟩
    refine ⟨u.shape, _, .inl ⟨hpinned', rfl⟩, rfl, ?_⟩
    rw [if_pos hpinned]
    exact {
      tidy := hm.tidy
      shape := hm.shape
      proper := hproper.leave
      tight := fun h => (hframes ▸ hm.tight h).leave hpinned'
      current := rfl
      calls := hm.calls
      declared := hm.declared
      outside := houtside
      functions := hm.functions
      values := hm.values
      bound := hbound }
  | false =>
    have hunpinned : ¬u.shape.Pinned frame.scope := by
      rintro ⟨q', hq'⟩
      rw [hq] at hq'
      cases hq'
    have hleft : u.shape.LeftBy frame.scope (u.shape.free frame.scope) := .inr ⟨hunpinned, rfl⟩
    refine ⟨_, _, hleft, rfl, ?_⟩
    rw [if_neg (by rw [hpinned]; exact Bool.false_ne_true)]
    have hvalues := hm.values.release frame.scope
    have hrelease : m.arena.release frame.scope = (m.arena.free frame.scope, .ok ()) := by
      simp only [Arena.release, hs, hpinned, Bool.false_eq_true, if_false]
    rw [hrelease] at hvalues
    refine {
      tidy := hm.tidy.free hs
      shape := by rw [Arena.shape_free hs, hm.shape]
      proper := hproper.free hunpinned
      tight := fun h => (hframes ▸ hm.tight h).free
      current := rfl
      calls := hm.calls
      declared := hm.declared
      outside := houtside
      functions := fun f hf => hleft.pinned_iff.mpr (hm.functions f hf)
      values := fun a ha => (hvalues a ha).leave hleft frames
      bound := fun f t ht p hp k hk => Arena.bindsAt_free ?_ (hbound f t ht p hp k hk) }
    rintro rfl
    exact hproper.nested.not_mem (List.mem_map.mpr ⟨_, ht, rfl⟩)

/-- What is left of a layout when a scope has been entered and left again. -/
theorem Layout.Le.of_left {u : Layout} {frame : Frame} {p : Handle} {τ : Shape}
    (hfree : w.shape frame.scope = none) (hu : (w.enter frame p).Le u)
    (hτ : u.shape.LeftBy frame.scope τ) : w.Le { u with frames := w.frames, shape := τ } := by
  have hpersists := (Shape.Persists.push hfree p).trans hu.persists
  refine ⟨rfl, hu.calls, hu.named, hu.still, hu.declared, ?_, fun hcalm h hh => ?_,
    fun hcalm hnamed => ?_⟩
  · intro h q b hb
    obtain ⟨b', hb', himp⟩ := hpersists h q b hb
    refine ⟨b', ?_, himp⟩
    rcases hτ with ⟨-, rfl⟩ | ⟨-, rfl⟩
    · exact hb'
    · refine (Shape.free_of_ne ?_).trans hb'
      rintro rfl
      rw [hfree] at hb
      cases hb
  · exact Shape.pinned_of_push (hu.calm hcalm h (hτ.pinned_iff.mp hh))
  · -- What was entered has not been pinned, and so it has been given up.
    obtain ⟨hpinned, -⟩ | ⟨-, rfl⟩ := hτ
    · obtain ⟨x, hx⟩ := Shape.pinned_of_push (hu.calm hcalm _ hpinned)
      rw [hfree] at hx
      cases hx
    · show u.shape.free frame.scope = w.shape
      rw [hu.exact hcalm hnamed]
      exact Shape.free_push hfree

theorem Machine.Fits.fresh (hm : m.Fits w) {s : Handle} {p : Option Handle}
    (hs : s = (m.arena.push p).2) : w.shape s = none := by
  rw [hs, ← hm.shape]
  exact Arena.shape_fresh hm.tidy p

/-- Statements in a scope that has just been entered. -/
theorem executeIn_fits (frame : Frame) {p : Handle} {statements : List Node}
    (hreclaim : settings.reclaim = true) (hfree : w.shape frame.scope = none)
    (hcurrent : m.current = w.frames.current)
    (hm : ({ m with current := frame.scope } : Machine).Fits (w.enter frame p))
    (hstatements : Effect.Related layout layout.Leaving layout.Anything (w.enter frame p)
      (executeAll execute statements) (executeAll execute' statements)) :
    Outcome.Related layout layout.Leaving layout.Anything w
      (executeIn settings execute statements frame.scope m)
      (executeIn settings execute' statements frame.scope m) := by
  refine executeIn_related (C := layout) ⟨rfl, hm⟩ hstatements ?_
  rintro u hu n n' ⟨rfl, hn⟩
  obtain ⟨τ, k, hτ, hleave, hk⟩ := hn.leave hreclaim hu.frames
  have hle := Layout.Le.of_left hfree hu hτ
  refine ⟨_, hle, ?_, ?_⟩
  · rintro why why' (hstop | ⟨a, b, rfl, rfl, hactive, rfl, ha⟩)
    · exact .inl hstop
    · exact .inr ⟨a, a, rfl, rfl, hactive, rfl, ha.leave hτ _⟩
  · rw [hcurrent, hleave]
    exact .done (.refl _) ⟨rfl, hk⟩ trivial

/-- A new scope is entered, and maybe something is bound in it. -/
theorem Machine.Fits.enter (hm : m.Fits w) (frame : Frame) {p : Handle}
    (hframe : frame.scope = (m.arena.push (some p)).2)
    (hproper : (w.shape.push frame.scope p).Proper (frame :: w.frames))
    (houtside : w.calls = [] → frame.function? = none) {arena : Arena Key Value}
    (harena : Arena.Rebound (Value.Fits w) (m.arena.push (some p)).1 arena)
    (hbound : ∀ f s, frame = .call f s → ∀ q ∈ f.params, ∀ k ∈ Key.ofName? q.lexeme,
      arena.bindsAt k s) :
    ({ m with arena := arena, current := frame.scope } : Machine).Fits (w.enter frame p) where
  tidy := harena.tidy (hm.tidy.push _)
  shape := by
    rw [harena.shape, Arena.shape_push hm.tidy, hm.shape, ← hframe]
    rfl
  proper := hproper
  tight h := (hm.tight h).push frame p
  current := rfl
  calls := hm.calls
  declared := hm.declared
  outside h := (List.filterMap_cons_none (houtside h)).trans (hm.outside h)
  functions f hf := (Shape.Persists.push (hm.fresh hframe) p).pinned (hm.functions f hf)
  values a ha f hf := by
    obtain ⟨hpinned, hnamed⟩ := harena.holds (hm.values.push _) a ha f hf
    exact ⟨(Shape.Persists.push (hm.fresh hframe) p).pinned hpinned, hnamed⟩
  bound f s hs q hq k hk := by
    rcases List.mem_cons.mp hs with hs | hs
    · exact hbound f s hs.symm q hq k hk
    · exact harena.bindsAt k s (Arena.bindsAt_push hm.tidy _ (hm.bound f s hs q hq k hk))

/-- Which calls are under way is a matter apart from the scopes. -/
theorem Machine.Fits.withCalls (hm : m.Fits w) {calls : List Function}
    (houtside : calls = [] → w.frames.calls = [])
    (hfunctions : ∀ f ∈ calls, w.shape.Pinned f.closure) :
    ({ m with calls := calls } : Machine).Fits { w with calls := calls } :=
  ⟨hm.tidy, hm.shape, hm.proper, hm.tight, hm.current, rfl, hm.declared, houtside, hfunctions,
    hm.values, hm.bound⟩

/-- A block is entered. -/
theorem Machine.Fits.enterBlock (hm : m.Fits w) :
    ∃ s, (m.arena.push (some m.current)).2 = s ∧ w.shape s = none ∧
      ({ m with arena := (m.arena.push (some m.current)).1, current := s } : Machine).Fits
        (w.enter (.block s) w.frames.current) := by
  have hfree := hm.fresh (p := some m.current) rfl
  refine ⟨_, rfl, hfree, ?_⟩
  rw [hm.current] at hfree ⊢
  refine hm.enter (.block _) rfl (hm.proper.pushBlock hfree) (fun _ => rfl) (.refl _) ?_
  intro f s hs
  cases hs

/-- A block corresponds to itself, given that its statements do. -/
theorem executeBlock_fits {statements : List Node} (hreclaim : settings.reclaim = true)
    (hm : m.Fits w)
    (hstatements : ∀ s, Effect.Related layout layout.Leaving layout.Anything
      (w.enter (.block s) w.frames.current) (executeAll execute statements)
      (executeAll execute' statements)) :
    Outcome.Related layout layout.Leaving layout.Anything w
      (executeBlock settings execute statements m)
      (executeBlock settings execute' statements m) := by
  obtain ⟨s, hs, hfree, henter⟩ := hm.enterBlock
  rw [executeBlock_apply, executeBlock_apply, hs]
  exact executeIn_fits (.block s) hreclaim hfree hm.current henter (hstatements s)

/-! ### Calls -/

theorem define_apply {scope : Handle} {name : Mark} {k : Key} (v : Value)
    (hk : Key.ofName? name.lexeme = some k) (hs : (m.arena.shape scope).isSome) :
    Effect.define scope name v m = .done () { m with arena := (m.arena.define scope k v).1 } := by
  obtain ⟨s, hs⟩ := Arena.isSome_shape_iff.mp hs
  have hkey : Effect.key name m = .done k m := by
    rw [Effect.key, hk]
    rfl
  rw [Effect.define, Effect.bind_of_done hkey]
  exact Effect.onArena_of_ok (by simp only [Arena.define, hs])

theorem define_of_none {scope : Handle} {name : Mark} (v : Value)
    (hk : Key.ofName? name.lexeme = none) :
    Effect.define scope name v m = .stopped (.broken .name) m := by
  have hkey : Effect.key name m = .stopped (.broken .name) m := by
    rw [Effect.key, hk]
    rfl
  rw [Effect.define, Effect.bind_of_stopped hkey]

/-- In a scope that is there, either all parameters are bound or one of them is no name. -/
theorem bindParameters_cases {scope : Handle} {names : List Mark} {values : List Value}
    (hlength : values.length = names.length) (hs : (m.arena.shape scope).isSome) :
    (∃ n, bindParameters scope names values m = .done () n ∧
        ∀ q ∈ names, ∀ k ∈ Key.ofName? q.lexeme, n.arena.bindsAt k scope) ∨
      ∃ why n, bindParameters scope names values m = .stopped why n ∧
        ∃ q ∈ names, ¬q.IsName := by
  induction names generalizing values m with
  | nil => exact .inl ⟨m, rfl, fun q hq => absurd hq List.not_mem_nil⟩
  | cons q names ih =>
    obtain ⟨v, values, rfl⟩ := List.exists_cons_of_length_eq_add_one hlength
    rw [bindParameters]
    cases hk : Key.ofName? q.lexeme with
    | none =>
      rw [Effect.bind_of_stopped (define_of_none v hk)]
      refine .inr ⟨_, _, rfl, q, List.mem_cons_self, ?_⟩
      rintro ⟨t, ht⟩
      rw [ht] at hk
      cases hk
    | some k =>
      rw [Effect.bind_of_done (define_apply v hk hs)]
      set n : Machine := { m with arena := (m.arena.define scope k v).1 }
      have hshape : n.arena.shape = m.arena.shape := Arena.shape_define _ _ _ _
      obtain ⟨n', hn', hbound⟩ | ⟨why, n', hn', q', hq', hnot⟩ :=
        ih (m := n) (by simpa using hlength) (by rwa [hshape])
      · refine .inl ⟨n', hn', List.forall_mem_cons.mpr ⟨fun k' hk' => ?_, hbound⟩⟩
        obtain rfl : k = k' := by simpa [hk] using hk'
        -- What has been bound stays bound while the other parameters are.
        obtain ⟨s, hs⟩ := Arena.isSome_shape_iff.mp hs
        have hrest := bindParameters_rebinds (P := fun _ => True) scope names values
          (fun _ _ => trivial) n
        rw [hn'] at hrest
        exact hrest.bindsAt k scope (Arena.bindsAt_define_self hs k v)
      · exact .inr ⟨why, n', hn', q', List.mem_cons_of_mem _ hq', hnot⟩

/-- The beginning of a call: its scope is entered and binds the parameters.  Where one of them is no
name the call is off, and a scope that nothing refers to stays behind. -/
theorem openCall_fits {f : Function} {arguments : List Value} (hm : m.Fits w)
    (hf : (Value.function f).Fits w) (harguments : ∀ v ∈ arguments, v.Fits w)
    (hlength : arguments.length = f.arity) :
    (∃ s n, openCall f arguments m = .done s n ∧ n.current = m.current ∧ w.shape s = none ∧
      ({ n with current := s } : Machine).Fits
        (Layout.enter { w with calls := f :: w.calls } (.call f s) f.closure)) ∨
      ∃ why n v, openCall f arguments m = .stopped why n ∧ (∀ a, why ≠ .returned a) ∧ w.Le v ∧
        n.Fits v := by
  obtain ⟨hpinned, hnamed⟩ := hf f rfl
  rw [openCall, Effect.bind_of_done (Effect.pushScope_apply f.closure m)]
  set s := (m.arena.push (some f.closure)).2 with hs
  set m₁ : Machine := { m with arena := (m.arena.push (some f.closure)).1 } with hm₁
  have hfree : w.shape s = none := hm.fresh hs
  have hshape : m₁.arena.shape = w.shape.push s f.closure := by
    rw [hm₁, Arena.shape_push hm.tidy, hm.shape]
  have hlive : (m₁.arena.shape s).isSome := by
    rw [hshape, Shape.push_self]
    rfl
  have hrebinds := bindParameters_rebinds (P := Value.Fits w) s f.params arguments harguments m₁
  obtain ⟨arena, h⟩ := bindParameters_onArena s f.params arguments m₁
  have hcases := bindParameters_cases hlength hlive
  rcases h with ⟨_, h⟩ | ⟨why, h, hwhy⟩
  all_goals rw [h] at hrebinds hcases
  · obtain ⟨n, hn, hbound⟩ | ⟨_, _, hn, -⟩ := hcases
    · cases hn
      rw [Effect.bind_of_done h]
      refine .inl ⟨s, _, rfl, rfl, hfree, ?_⟩
      have hcalled : ({ m with calls := f :: m.calls } : Machine).Fits
          { w with calls := f :: w.calls } := by
        rw [hm.calls]
        exact hm.withCalls (fun h => by cases h) (List.forall_mem_cons.mpr ⟨hpinned, hm.functions⟩)
      refine hcalled.enter (.call f s) hs (hm.proper.pushCall hfree hpinned) (fun h => by cases h)
        hrebinds ?_
      rintro g t hg
      cases hg
      exact hbound
    · cases hn
  · obtain ⟨_, hn, -⟩ | ⟨_, _, hn, q, hq, hnot⟩ := hcases
    · cases hn
    · cases hn
      rw [Effect.bind_of_stopped h]
      have hunnamed : ¬w.named := fun h => hnot ((hnamed h).params q hq)
      have hle : w.Le { w with shape := w.shape.push s f.closure } := by
        exact ⟨rfl, rfl, rfl, rfl, Nat.le_refl _, .push hfree _, fun _ h hh => Shape.pinned_of_push hh,
          fun _ h => absurd h hunnamed⟩
      refine .inr ⟨why, _, _, rfl, hwhy, hle, ?_⟩
      exact {
        tidy := hrebinds.tidy (hm.tidy.push _)
        shape := hrebinds.shape.trans hshape
        proper := hm.proper.push hfree _
        tight := fun h => absurd h hunnamed
        current := hm.current
        calls := hm.calls
        declared := hm.declared
        outside := hm.outside
        functions := fun f hf => hle.persists.pinned (hm.functions f hf)
        values := fun a ha => (hrebinds.holds (hm.values.push _) a ha).mono hle
        bound := fun g t hg q hq k hk =>
          hrebinds.bindsAt k t (Arena.bindsAt_push hm.tidy _ (hm.bound g t hg q hq k hk)) }

/-- When a call is over, there is one call less. -/
theorem Layout.Le.of_calls {u : Layout} {f : Function}
    (hu : Layout.Le { w with calls := f :: w.calls } u) : w.Le { u with calls := w.calls } := by
  have hcalm : Layout.Calm { w with calls := f :: w.calls } := .inr (List.cons_ne_nil f _)
  exact ⟨hu.frames, rfl, hu.named, hu.still, hu.declared, hu.persists, fun _ => hu.calm hcalm,
    fun _ => hu.exact hcalm⟩

theorem runBody_fits {f : Function} {arguments : List Value} (hreclaim : settings.reclaim = true)
    (hm : m.Fits w) (hf : (Value.function f).Fits w) (harguments : ∀ v ∈ arguments, v.Fits w)
    (hlength : arguments.length = f.arity)
    (hbody : ∀ s, Effect.Related layout layout.Leaving layout.Anything
      (Layout.enter { w with calls := f :: w.calls } (.call f s) f.closure)
      (executeAll execute f.body) (executeAll execute' f.body)) :
    Outcome.Related layout layout.Halting layout.values w
      (runBody settings execute f arguments m) (runBody settings execute' f arguments m) := by
  rw [runBody_eq, runBody_eq]
  obtain ⟨s, n, hopen, hcurrent, hfree, henter⟩ | ⟨why, n, v, hopen, hwhy, hle, hn⟩ :=
    openCall_fits hm hf harguments hlength
  · rw [Effect.bind_of_done hopen, Effect.bind_of_done hopen]
    refine closeCall_related (fun u => ⟨rfl, .of_ne (by simp)⟩)
      (executeIn_fits (w := { w with calls := f :: w.calls }) (.call f s) hreclaim hfree
        (hcurrent.trans hm.current) henter (hbody s)) ?_
    rintro u hu n n' ⟨rfl, hn⟩
    have htail : n.calls.tail = w.calls := by
      rw [hn.calls, hu.calls]
      rfl
    refine ⟨{ u with calls := w.calls }, .of_calls hu, ⟨rfl, ?_⟩, fun _ _ h => h⟩
    rw [htail]
    refine hn.withCalls (fun h => ?_) fun g hg => hu.persists.pinned (hm.functions g hg)
    rw [hu.frames]
    exact hm.outside h
  · rw [Effect.bind_of_stopped hopen, Effect.bind_of_stopped hopen]
    exact .stopped hle ⟨rfl, hn⟩ ⟨rfl, trivial, hwhy⟩

/-! ### Fitting a layout as a simulation -/

/-- What is asked of a node: its parameters are names, if all are to be. -/
def Layout.Admits (w : Layout) (e : Node) : Prop := w.named → e.NamesParameters

/-- The node declares no function, and no statement is executed in the course of it. -/
def Node.IsSimple (e : Node) : Prop :=
  e.branches = [] ∧ ∀ name params body, e ≠ .function name params body

/-- What is asked of a statement.  Outside all calls it may pin scopes, unless it is simple. -/
def Layout.AdmitsStatement (w : Layout) (e : Node) : Prop :=
  w.Admits e ∧ (w.still → w.calls ≠ [] ∨ e.IsSimple)

theorem Layout.AdmitsStatement.branch {e f : Node} (he : w.AdmitsStatement e)
    (hf : f ∈ e.branches) : w.AdmitsStatement f := by
  refine ⟨fun hnamed => (he.1 hnamed).branch hf, fun hstill => .inl ?_⟩
  refine (he.2 hstill).resolve_right fun hsimple => ?_
  rw [hsimple.1] at hf
  exact List.not_mem_nil hf

theorem Layout.Admits.mono {v w : Layout} {e : Node} (hvw : v.Le w) (he : v.Admits e) :
    w.Admits e := by
  rw [Layout.Admits, hvw.named]
  exact he

theorem Layout.AdmitsStatement.mono {v w : Layout} {e : Node} (hvw : v.Le w)
    (he : v.AdmitsStatement e) : w.AdmitsStatement e := by
  refine ⟨he.1.mono hvw, ?_⟩
  rw [hvw.still, hvw.calls]
  exact he.2

/-- The evaluator keeps to the layout of a machine. -/
def layoutSimulation (settings : Settings) (hreclaim : settings.reclaim = true) :
    Simulation settings settings where
  toCorrespondence := layout
  expression := Layout.Admits
  statement := Layout.AdmitsStatement
  expression_mono h he := he.mono h
  statement_mono h he := he.mono h
  expression_operand h he hnamed := (h hnamed).operand he
  statement_operand h he hnamed := (h.1 hnamed).operand he
  statement_branch h _ he := h.branch he
  maxCalls_eq := settings.maxCalls_self
  calls_length h := by rw [h.1]
  unscoped_eq h := by rw [h.1]
  scalar h := ⟨rfl, .of_ne fun f hf => by cases hf; cases h⟩
  literal {w j} _ := ⟨rfl, .of_ne fun f hf => by cases j <;> cases hf⟩
  exhausted := trivial
  raises _ _ := trivial
  notStatement _ _ := trivial
  topLevelReturn _ _ _ := trivial
  active_of_calls _ _ := trivial
  print line := modify_fits (fun _ => rfl) (fun _ => rfl) (fun _ => rfl) fun _ => rfl
  report line := modify_fits (fun _ => rfl) (fun _ => rfl) (fun _ => rfl) fun _ => rfl
  trace least line := traceFrom_fits least settings line
  lookUp _ := lookUp_fits _
  assign _ hab := by
    obtain ⟨rfl, ha⟩ := hab
    exact assign_fits _ ha
  declare _ hab := by
    obtain ⟨rfl, ha⟩ := hab
    exact defineHere_fits _ ha
  declareFunction h := declareFunction_fits
    (fun hstill => (h.2 hstill).resolve_right fun hsimple => hsimple.2 _ _ _ rfl) h.1
  block {w execute execute' statements} hexecute h := by
    rintro u hu m m' ⟨rfl, hm⟩
    have hu : u.AdmitsStatement (.block statements) := h.mono hu
    refine executeBlock_fits hreclaim hm fun s => executeAll_related fun e he v hv => ?_
    exact hexecute v e (Layout.AdmitsStatement.mono hv (hu.branch he))
  body {w execute execute' f f' arguments arguments'} hexecute hf hs hlength := by
    obtain ⟨heq, hf⟩ := hf
    cases heq
    obtain ⟨harguments, hs⟩ := (List.forall₂_and_left _ _).mp (hs.imp fun _ _ => And.symm)
    obtain rfl : arguments = arguments' := List.forall₂_eq_eq_eq ▸ hs
    rintro u hu m m' ⟨rfl, hm⟩
    have hf' := hf.mono hu
    refine runBody_fits hreclaim hm hf' (fun v hv => (harguments v hv).mono hu) hlength
      fun s => executeAll_related fun e he v hv => ?_
    refine hexecute v e (Layout.AdmitsStatement.mono hv ⟨fun hnamed => ?_, fun _ => .inl (by simp [Layout.enter])⟩)
    exact ((hf' f rfl).2 hnamed).body e he

/-! ### What is left when an effect has ended -/

section Contracts

variable {α β : Type} {stops : layout.World → Stop → Stop → Prop}
  {results : layout.World → α → β → Prop}

/-- The machine that is left fits what the layout has become. -/
theorem Outcome.Related.fits {x : Outcome α} {y : Outcome β}
    (h : Outcome.Related layout stops results w x y) : ∃ v, w.Le v ∧ x.machine.Fits v := by
  cases h with
  | done grown machines _ => exact ⟨_, grown, machines.2⟩
  | stopped grown machines _ => exact ⟨_, grown, machines.2⟩

theorem Outcome.Related.fits_of_done {a : α} {n : Machine} {x : Outcome α} {y : Outcome β}
    (h : Outcome.Related layout stops results w x y) (hx : x = .done a n) :
    ∃ v, w.Le v ∧ n.Fits v ∧ ∃ b, results v a b := by
  subst hx
  cases h with
  | done grown machines ends => exact ⟨_, grown, machines.2, _, ends⟩

theorem Outcome.Related.persists {x : Outcome α} {y : Outcome β}
    (h : Outcome.Related layout stops results w x y) :
    w.shape.Persists x.machine.arena.shape := by
  obtain ⟨v, hv, hn⟩ := h.fits
  rw [hn.shape]
  exact hv.persists

/-- While it is calm, no scope is pinned. -/
theorem Outcome.Related.pinned_iff {x : Outcome α} {y : Outcome β}
    (h : Outcome.Related layout stops results w x y) (hcalm : w.Calm) (g : Handle) :
    x.machine.arena.shape.Pinned g ↔ w.shape.Pinned g := by
  obtain ⟨v, hv, hn⟩ := h.fits
  rw [hn.shape]
  exact ⟨hv.calm hcalm g, hv.persists.pinned⟩

/-- While it is calm and all parameters are names, all scopes are as before. -/
theorem Outcome.Related.shape_eq {x : Outcome α} {y : Outcome β}
    (h : Outcome.Related layout stops results w x y) (hcalm : w.Calm) (hnamed : w.named) :
    x.machine.arena.shape = w.shape := by
  obtain ⟨v, hv, hn⟩ := h.fits
  rw [hn.shape, hv.exact hcalm hnamed]

/-- Whether anything is claimed of statements outside calls makes no difference to a machine. -/
theorem Machine.Fits.of_eq {v : Layout} (hm : m.Fits w) (hframes : v.frames = w.frames)
    (hshape : v.shape = w.shape) (hcalls : v.calls = w.calls) (hdeclared : v.declared = w.declared)
    (hnamed : v.named = w.named) : m.Fits v := by
  obtain ⟨frames, shape, calls, declared, named, still⟩ := v
  obtain ⟨frames', shape', calls', declared', named', still'⟩ := w
  obtain rfl : frames = frames' := hframes
  obtain rfl : shape = shape' := hshape
  obtain rfl : calls = calls' := hcalls
  obtain rfl : declared = declared' := hdeclared
  obtain rfl : named = named' := hnamed
  exact ⟨hm.tidy, hm.shape, hm.proper, hm.tight, hm.current, hm.calls, hm.declared, hm.outside,
    hm.functions, hm.values, hm.bound⟩

variable (hreclaim : settings.reclaim = true) (n : Nat) (hm : m.Fits w)
include hreclaim hm

theorem evaluateUpTo_fits {e : Node} (he : w.Admits e) :
    Outcome.Related layout layout.Halting layout.values w (evaluateUpTo settings n e m)
      (evaluateUpTo settings n e m) :=
  (layoutSimulation settings hreclaim).evaluateUpTo n w e he w (.refl w) m m ⟨rfl, hm⟩

theorem executeUpTo_fits {e : Node} (he : w.AdmitsStatement e) :
    Outcome.Related layout layout.Leaving layout.values w (executeUpTo settings n e m)
      (executeUpTo settings n e m) :=
  (layoutSimulation settings hreclaim).executeUpTo n w e he w (.refl w) m m ⟨rfl, hm⟩

theorem evaluateAll_fits {es : List Node} (hes : ∀ e ∈ es, w.Admits e) :
    Outcome.Related layout layout.Halting (fun u => List.Forall₂ (layout.values u)) w
      (evaluateAll (evaluateUpTo settings n) es m) (evaluateAll (evaluateUpTo settings n) es m) :=
  evaluateAll_related (fun e he u hu => (layoutSimulation settings hreclaim).evaluateUpTo n u e
    ((hes e he).mono hu)) w (.refl w) m m ⟨rfl, hm⟩

theorem executeAll_fits {es : List Node} (hes : ∀ e ∈ es, w.AdmitsStatement e) :
    Outcome.Related layout layout.Leaving layout.Anything w
      (executeAll (executeUpTo settings n) es m) (executeAll (executeUpTo settings n) es m) :=
  executeAll_related (fun e he u hu => (layoutSimulation settings hreclaim).executeUpTo n u e
    ((hes e he).mono hu)) w (.refl w) m m ⟨rfl, hm⟩

end Contracts

end LoxLang
