/-
Effects that run side by side.

A `Correspondence` says when two machines, and two values, correspond to each other.  It does
so relative to a world: what the two runs have in common, which grows while they go on.
`Effect.Related` says that two effects, begun in corresponding machines, end in the same way,
in corresponding machines and with related results.  Here are the rules by which this follows
for an effect that is put together from others, one rule for each way of doing so:

* `Effect.Related.bind` — one effect after another;
* `Effect.Related.whileTrue` — an effect repeated under a condition;
* `Effect.Related.evaluateAll`, `executeAll`, `executeFrom` — an effect for each node of a
  list;
* `executeIn_related` — statements in a scope that is left however they end.
-/
import LoxLang.Machine.Run
import LoxLang.Proofs.Machine.Parts
import Mathlib.Data.List.Forall2

namespace LoxLang

/-- The machine that is left when an effect has ended. -/
def Outcome.machine {α : Type} : Outcome α → Machine
  | .done _ m => m
  | .stopped _ m => m

/-- When two machines correspond to each other.  `halts` are the stops with which two
evaluations may end, alike on both sides; two executions may also both give back a value,
where the world is `active`. -/
structure Correspondence where
  World : Type
  le : World → World → Prop
  machines : World → Machine → Machine → Prop
  values : World → Value → Value → Prop
  halts : Stop → Prop
  active : World → Prop
  le_refl (w : World) : le w w
  le_trans {u v w : World} : le u v → le v w → le u w
  values_mono {v w : World} {a b : Value} : le v w → values v a b → values w a b
  active_mono {v w : World} : le v w → active v → active w

namespace Correspondence

variable (C : Correspondence)

/-- A stop that is the same on both sides and gives back no value. -/
def Halting (_ : C.World) (why why' : Stop) : Prop :=
  why = why' ∧ C.halts why ∧ ∀ v, why ≠ .returned v

/-- A stop of two executions: they halt alike, or both give back a value. -/
def Leaving (w : C.World) (why why' : Stop) : Prop :=
  C.Halting w why why' ∨
    ∃ a b, why = .returned a ∧ why' = .returned b ∧ C.active w ∧ C.values w a b

/-- Any two results. -/
def Anything {α β : Type} (_ : C.World) (_ : α) (_ : β) : Prop := True

/-- The same result on both sides. -/
def Same {α : Type} (_ : C.World) (a b : α) : Prop := a = b

theorem Leaving.mono {C : Correspondence} {v w : C.World} {why why' : Stop} (hvw : C.le v w)
    (h : C.Leaving v why why') : C.Leaving w why why' := by
  rcases h with h | ⟨a, b, ha, hb, hv, hab⟩
  · exact .inl h
  · exact .inr ⟨a, b, ha, hb, C.active_mono hvw hv, C.values_mono hvw hab⟩

end Correspondence

/-- Two ends of effects correspond in a world that has grown from `w`. -/
inductive Outcome.Related (C : Correspondence) (stops : C.World → Stop → Stop → Prop)
    {α β : Type} (results : C.World → α → β → Prop) (w : C.World) :
    Outcome α → Outcome β → Prop where
  | done {w' : C.World} {a : α} {b : β} {m m' : Machine} (grown : C.le w w')
      (machines : C.machines w' m m') (ends : results w' a b) :
      Related C stops results w (.done a m) (.done b m')
  | stopped {w' : C.World} {why why' : Stop} {m m' : Machine} (grown : C.le w w')
      (machines : C.machines w' m m') (ends : stops w' why why') :
      Related C stops results w (.stopped why m) (.stopped why' m')

/-- Two effects that end alike, whenever they begin in corresponding machines in a world that
has grown from `w`. -/
def Effect.Related (C : Correspondence) (stops : C.World → Stop → Stop → Prop) {α β : Type}
    (results : C.World → α → β → Prop) (w : C.World) (x : Effect α) (y : Effect β) : Prop :=
  ∀ w', C.le w w' → ∀ m m', C.machines w' m m' →
    Outcome.Related C stops results w' (x m) (y m')

variable {C : Correspondence} {stops : C.World → Stop → Stop → Prop} {α β γ δ : Type}
  {results : C.World → α → β → Prop}

/-! ### Weakening -/

theorem Outcome.Related.mono {v w : C.World} {x : Outcome α} {y : Outcome β}
    (hvw : C.le v w) (h : Outcome.Related C stops results w x y) :
    Outcome.Related C stops results v x y := by
  cases h with
  | done grown machines ends => exact .done (C.le_trans hvw grown) machines ends
  | stopped grown machines ends => exact .stopped (C.le_trans hvw grown) machines ends

theorem Outcome.Related.weaken {stops' : C.World → Stop → Stop → Prop}
    {results' : C.World → α → β → Prop} {w : C.World} {x : Outcome α} {y : Outcome β}
    (h : Outcome.Related C stops results w x y)
    (hstops : ∀ u why why', stops u why why' → stops' u why why')
    (hresults : ∀ u a b, results u a b → results' u a b) :
    Outcome.Related C stops' results' w x y := by
  cases h with
  | done grown machines ends => exact .done grown machines (hresults _ _ _ ends)
  | stopped grown machines ends => exact .stopped grown machines (hstops _ _ _ ends)

namespace Effect.Related

theorem mono {v w : C.World} {x : Effect α} {y : Effect β} (hvw : C.le v w)
    (h : Related C stops results v x y) : Related C stops results w x y :=
  fun u hu => h u (C.le_trans hvw hu)

theorem weaken {stops' : C.World → Stop → Stop → Prop}
    {results' : C.World → α → β → Prop} {w : C.World} {x : Effect α} {y : Effect β}
    (h : Related C stops results w x y)
    (hstops : ∀ u why why', stops u why why' → stops' u why why')
    (hresults : ∀ u a b, results u a b → results' u a b) :
    Related C stops' results' w x y :=
  fun u hu m m' hm => (h u hu m m' hm).weaken hstops hresults

/-- What halts alike may also be part of an execution. -/
theorem leaving {w : C.World} {x : Effect α} {y : Effect β}
    (h : Related C C.Halting results w x y) : Related C C.Leaving results w x y :=
  h.weaken (fun _ _ _ h => .inl h) fun _ _ _ h => h

theorem anything {w : C.World} {x : Effect α} {y : Effect β}
    (h : Related C stops results w x y) : Related C stops C.Anything w x y :=
  h.weaken (fun _ _ _ h => h) fun _ _ _ _ => trivial

/-! ### Simple effects -/

theorem pure {w : C.World} {a : α} {b : β} (h : ∀ u, C.le w u → results u a b) :
    Related C stops results w (Pure.pure a) (Pure.pure b) :=
  fun u hu _ _ hm => .done (C.le_refl u) hm (h u hu)

theorem stop {w : C.World} {why why' : Stop} (h : ∀ u, C.le w u → stops u why why') :
    Related C stops results w (Effect.stop why) (Effect.stop why') :=
  fun u hu _ _ hm => .stopped (C.le_refl u) hm (h u hu)

theorem halt {w : C.World} {why : Stop} (h : C.halts why) (hv : ∀ v, why ≠ .returned v) :
    Related C C.Halting results w (Effect.stop why) (Effect.stop why) :=
  stop fun _ _ => ⟨rfl, h, hv⟩

/-- A part of the state that is looked at. -/
theorem gets {w : C.World} {f : Machine → α} {g : Machine → β}
    (h : ∀ u, C.le w u → ∀ m m', C.machines u m m' → results u (f m) (g m')) :
    Related C stops results w (Effect.gets f) (Effect.gets g) :=
  fun u hu m m' hm => .done (C.le_refl u) hm (h u hu m m' hm)

/-- A change after which the machines still correspond. -/
theorem modify {w : C.World} {f g : Machine → Machine}
    (h : ∀ u, C.le w u → ∀ m m', C.machines u m m' → C.machines u (f m) (g m')) :
    Related C stops C.Anything w (Effect.modify f) (Effect.modify g) :=
  fun u hu m m' hm => .done (C.le_refl u) (h u hu m m' hm) trivial

/-! ### Effects made of others -/

theorem bind {middle : C.World → γ → δ → Prop} {w : C.World} {x : Effect γ} {y : Effect δ}
    {f : γ → Effect α} {g : δ → Effect β} (hxy : Related C stops middle w x y)
    (hfg : ∀ u, C.le w u → ∀ c d, middle u c d → Related C stops results u (f c) (g d)) :
    Related C stops results w (x >>= f) (y >>= g) := by
  intro u hu m m' hm
  show Outcome.Related C stops results u
    (match x m with | .done a m => f a m | .stopped why m => .stopped why m)
    (match y m' with | .done a m => g a m | .stopped why m => .stopped why m)
  have h := hxy u hu m m' hm
  generalize x m = o, y m' = o' at h ⊢
  cases h with
  | done grown machines ends =>
    -- The second effect begins in the world that the first one has ended in.
    exact (hfg _ (C.le_trans hu grown) _ _ ends _ (C.le_refl _) _ _ machines).mono grown
  | stopped grown machines ends => exact .stopped grown machines ends

/-- One effect after another whose result does not matter. -/
theorem seq {w : C.World} {x : Effect γ} {y : Effect δ} {f : γ → Effect α} {g : δ → Effect β}
    (hxy : Related C stops C.Anything w x y)
    (hfg : ∀ u, C.le w u → ∀ c d, Related C stops results u (f c) (g d)) :
    Related C stops results w (x >>= f) (y >>= g) :=
  hxy.bind fun u hu c d _ => hfg u hu c d

theorem map {middle : C.World → γ → δ → Prop} {w : C.World} {x : Effect γ} {y : Effect δ}
    {f : γ → α} {g : δ → β} (hxy : Related C stops middle w x y)
    (hfg : ∀ u c d, middle u c d → results u (f c) (g d)) :
    Related C stops results w (f <$> x) (g <$> y) := by
  intro u hu m m' hm
  show Outcome.Related C stops results u
    (match x m with | .done a m => .done (f a) m | .stopped why m => .stopped why m)
    (match y m' with | .done a m => .done (g a) m | .stopped why m => .stopped why m)
  have h := hxy u hu m m' hm
  generalize x m = o, y m' = o' at h ⊢
  cases h with
  | done grown machines ends => exact .done grown machines (hfg _ _ _ ends)
  | stopped grown machines ends => exact .stopped grown machines ends

/-- A loop, whose rounds correspond one by one. -/
theorem whileTrue {w : C.World} {c c' : Effect Bool} {body body' : Effect Unit}
    (hc : ∀ u, C.le w u → Related C stops C.Same u c c')
    (hbody : ∀ u, C.le w u → Related C stops C.Anything u body body')
    (hexhausted : ∀ u, stops u .exhausted .exhausted) (n : Nat) :
    Related C stops C.Anything w (Effect.whileTrue c body n) (Effect.whileTrue c' body' n) := by
  induction n generalizing w with
  | zero => exact fun u _ _ _ hm => .stopped (C.le_refl u) hm (hexhausted u)
  | succ n ih =>
    intro u hu m m' hm
    rw [Effect.whileTrue, Effect.whileTrue]
    have h := hc u hu u (C.le_refl u) m m' hm
    generalize c m = o, c' m' = o' at h ⊢
    cases h with
    | stopped grown machines ends => exact .stopped grown machines ends
    | @done v a b m₁ m₁' grown machines ends =>
      -- The condition has the same verdict on both sides.
      obtain rfl : a = b := ends
      cases a with
      | false => exact .done grown machines trivial
      | true =>
        have hv := C.le_trans hu grown
        dsimp only
        have h := hbody v hv v (C.le_refl v) m₁ m₁' machines
        generalize body m₁ = o, body' m₁' = o' at h ⊢
        cases h with
        | stopped grown' machines ends => exact .stopped (C.le_trans grown grown') machines ends
        | @done v' _ _ m₂ m₂' grown' machines _ =>
          have hv' := C.le_trans hv grown'
          -- The rounds that are left, in the world after this one.
          have rest := ih (fun z hz => hc z (C.le_trans hv' hz))
            (fun z hz => hbody z (C.le_trans hv' hz))
          exact (rest v' (C.le_refl v') m₂ m₂' machines).mono (C.le_trans grown grown')

/-- Where corresponding machines are the same, an effect need only be followed once. -/
theorem diagonal {results : C.World → α → α → Prop} {w : C.World} {x : Effect α}
    (hC : ∀ u m m', C.machines u m m' → m = m')
    (h : ∀ u, C.le w u → ∀ m, C.machines u m m →
      Outcome.Related C stops results u (x m) (x m)) :
    Related C stops results w x x := by
  intro u hu m m' hm
  obtain rfl := hC u m m' hm
  exact h u hu m hm

end Effect.Related

/-- An effect, and another one after it however the first one ends.  The worlds need not grow
from the first to the second: what holds of the ends of the first has to hold again where the
second begins. -/
theorem Outcome.Related.ensuring {stops' : C.World → Stop → Stop → Prop}
    {results' : C.World → α → β → Prop} {w inner : C.World} {x : Effect α} {y : Effect β}
    {last last' : Effect Unit} {m m' : Machine}
    (hxy : Outcome.Related C stops results inner (x m) (y m'))
    (hstops : ∀ u v, C.le u v → ∀ why why', stops' u why why' → stops' v why why')
    (hresults : ∀ u v, C.le u v → ∀ a b, results' u a b → results' v a b)
    (hlast : ∀ u, C.le inner u → ∀ m m', C.machines u m m' → ∃ v, C.le w v ∧
      (∀ why why', stops u why why' → stops' v why why') ∧
      (∀ a b, results u a b → results' v a b) ∧
      Outcome.Related C stops' C.Anything v (last m) (last' m')) :
    Outcome.Related C stops' results' w (Effect.ensuring x last m)
      (Effect.ensuring y last' m') := by
  rw [Effect.ensuring, Effect.ensuring]
  generalize x m = o, y m' = o' at hxy ⊢
  cases hxy with
  | @done u a b m₁ m₁' grown machines ends =>
    -- The first effect is done: its result stands, unless the last effect stops.
    obtain ⟨v, hwv, -, hr, h⟩ := hlast u grown m₁ m₁' machines
    dsimp only
    generalize last m₁ = o, last' m₁' = o' at h ⊢
    cases h with
    | done grown machines _ =>
      exact .done (C.le_trans hwv grown) machines (hresults _ _ grown _ _ (hr _ _ ends))
    | stopped grown machines ends => exact .stopped (C.le_trans hwv grown) machines ends
  | @stopped u why why' m₁ m₁' grown machines ends =>
    -- It has stopped: so has the whole, for the same reason or for that of the last effect.
    obtain ⟨v, hwv, hs, -, h⟩ := hlast u grown m₁ m₁' machines
    dsimp only
    generalize last m₁ = o, last' m₁' = o' at h ⊢
    cases h with
    | done grown machines _ =>
      exact .stopped (C.le_trans hwv grown) machines (hstops _ _ grown _ _ (hs _ _ ends))
    | stopped grown machines ends => exact .stopped (C.le_trans hwv grown) machines ends

/-! ### Effects for the nodes of a list -/

section

variable {evaluate evaluate' execute execute' : Node → Effect Value}

/-- The values of the nodes of two lists correspond, if they do one by one. -/
theorem evaluateAll_forall₂ {R : Node → Node → Prop} {es fs : List Node}
    (hs : List.Forall₂ R es fs) {w : C.World}
    (h : ∀ e f, R e f → ∀ u, C.le w u →
      Effect.Related C stops C.values u (evaluate e) (evaluate' f)) :
    Effect.Related C stops (fun u => List.Forall₂ (C.values u)) w
      (evaluateAll evaluate es) (evaluateAll evaluate' fs) := by
  induction hs generalizing w with
  | nil => exact .pure fun _ _ => .nil
  | @cons e f es fs hef _ ih =>
    refine .bind (h e f hef w (C.le_refl w)) fun u hu a b hab => ?_
    refine .bind (ih fun e f hef v hv => h e f hef v (C.le_trans hu hv))
      fun v hv as bs hs => .pure fun z hz => ?_
    exact .cons (C.values_mono (C.le_trans hv hz) hab) (hs.imp fun _ _ => C.values_mono hz)

/-- Executing the nodes of two lists corresponds, if it does one by one. -/
theorem executeAll_forall₂ {R : Node → Node → Prop} {es fs : List Node}
    (hs : List.Forall₂ R es fs) {w : C.World}
    (h : ∀ e f, R e f → ∀ u, C.le w u →
      Effect.Related C stops C.values u (execute e) (execute' f)) :
    Effect.Related C stops C.Anything w (executeAll execute es) (executeAll execute' fs) := by
  induction hs generalizing w with
  | nil => exact .pure fun _ _ => trivial
  | @cons e f es fs hef _ ih =>
    refine .bind (h e f hef w (C.le_refl w)) fun u hu a b _ => ?_
    exact ih fun e f hef v hv => h e f hef v (C.le_trans hu hv)

/-- Each node of a list, taken for itself. -/
theorem forall₂_self (nodes : List Node) :
    List.Forall₂ (fun e f => e = f ∧ e ∈ nodes) nodes nodes :=
  List.forall₂_same.mpr fun _ he => ⟨rfl, he⟩

theorem evaluateAll_related {w : C.World} {nodes : List Node}
    (h : ∀ e ∈ nodes, ∀ u, C.le w u →
      Effect.Related C stops C.values u (evaluate e) (evaluate' e)) :
    Effect.Related C stops (fun u => List.Forall₂ (C.values u)) w
      (evaluateAll evaluate nodes) (evaluateAll evaluate' nodes) := by
  refine evaluateAll_forall₂ (forall₂_self nodes) ?_
  rintro e _ ⟨rfl, he⟩
  exact h e he

theorem executeAll_related {w : C.World} {nodes : List Node}
    (h : ∀ e ∈ nodes, ∀ u, C.le w u →
      Effect.Related C stops C.values u (execute e) (execute' e)) :
    Effect.Related C stops C.Anything w (executeAll execute nodes)
      (executeAll execute' nodes) := by
  refine executeAll_forall₂ (forall₂_self nodes) ?_
  rintro e _ ⟨rfl, he⟩
  exact h e he

end

/-! ### Scopes and calls -/

theorem executeIn_apply (settings : Settings) (execute : Node → Effect Value)
    (statements : List Node) (scope : Handle) (m : Machine) :
    executeIn settings execute statements scope m
      = Effect.ensuring (fun m => executeAll execute statements { m with current := scope })
          (leaveScope settings m.current scope) m := rfl

/-- Statements in a scope of their own.  `w` is the world around the scope, `inner` the one in
which the statements begin; `hleave` is what leaving the scope has to achieve. -/
theorem executeIn_related {settings settings' : Settings} {w inner : C.World}
    {execute execute' : Node → Effect Value} {statements : List Node} {scope scope' : Handle}
    {m m' : Machine}
    (henter : C.machines inner { m with current := scope } { m' with current := scope' })
    (hbody : Effect.Related C C.Leaving C.Anything inner (executeAll execute statements)
      (executeAll execute' statements))
    (hleave : ∀ u, C.le inner u → ∀ n n', C.machines u n n' → ∃ v, C.le w v ∧
      (∀ why why', C.Leaving u why why' → C.Leaving v why why') ∧
      Outcome.Related C C.Halting C.Anything v (leaveScope settings m.current scope n)
        (leaveScope settings' m'.current scope' n')) :
    Outcome.Related C C.Leaving C.Anything w (executeIn settings execute statements scope m)
      (executeIn settings' execute' statements scope' m') := by
  rw [executeIn_apply, executeIn_apply]
  refine Outcome.Related.ensuring (hbody inner (C.le_refl inner) _ _ henter)
    (fun _ _ huv _ _ => .mono huv) (fun _ _ _ _ _ _ => trivial) ?_
  intro u hu n n' hn
  obtain ⟨v, hwv, hstops, h⟩ := hleave u hu n n' hn
  exact ⟨v, hwv, hstops, fun _ _ _ => trivial,
    h.weaken (fun _ _ _ h => .inl h) fun _ _ _ h => h⟩

/-- What is given back by the body of a call is the value of the call. -/
theorem catchReturned_related {w : C.World} {body body' : Effect Unit}
    {m m' : Machine} (hnil : ∀ u, C.values u .nil .nil)
    (h : Outcome.Related C C.Leaving C.Anything w (body m) (body' m')) :
    Outcome.Related C C.Halting C.values w (catchReturned body m) (catchReturned body' m') := by
  rw [catchReturned, catchReturned]
  generalize body m = o, body' m' = o' at h ⊢
  cases h with
  | done grown machines _ => exact .done grown machines (hnil _)
  | @stopped u why why' n n' grown machines ends =>
    rcases ends with ⟨rfl, hhalt, hreturned⟩ | ⟨a, b, rfl, rfl, -, hab⟩
    · cases why with
      | returned v => exact absurd rfl (hreturned v)
      | failed e => exact .stopped grown machines ⟨rfl, hhalt, hreturned⟩
      | broken b => exact .stopped grown machines ⟨rfl, hhalt, hreturned⟩
      | exhausted => exact .stopped grown machines ⟨rfl, hhalt, hreturned⟩
    -- A value is given back on both sides, and the call ends with it.
    · exact .done grown machines hab

/-- The rest of a call.  `w` is the world around the call and `inner` the one in which its body
is executed. -/
theorem closeCall_related {settings settings' : Settings} {w inner : C.World}
    {execute execute' : Node → Effect Value} {f f' : Function} {scope scope' : Handle}
    {m m' : Machine} (hnil : ∀ u, C.values u .nil .nil)
    (hbody : Outcome.Related C C.Leaving C.Anything inner
      (executeIn settings execute f.body scope m)
      (executeIn settings' execute' f'.body scope' m'))
    (htail : ∀ u, C.le inner u → ∀ n n', C.machines u n n' → ∃ v, C.le w v ∧
      C.machines v { n with calls := n.calls.tail } { n' with calls := n'.calls.tail } ∧
      ∀ a b, C.values u a b → C.values v a b) :
    Outcome.Related C C.Halting C.values w (closeCall settings execute f scope m)
      (closeCall settings' execute' f' scope' m') := by
  refine Outcome.Related.ensuring (catchReturned_related hnil hbody)
    (fun _ _ _ _ _ h => h) (fun _ _ huv _ _ => C.values_mono huv) fun u hu n n' hn => ?_
  obtain ⟨v, hwv, hmachines, hvalues⟩ := htail u hu n n' hn
  exact ⟨v, hwv, fun _ _ h => h, hvalues, .done (C.le_refl v) hmachines trivial⟩

end LoxLang
