/-
The shape of an arena.

`Arena.shape` is what is left of an arena without the bindings in its scopes: which handles have
a scope, which scope is around each of them, and which ones are pinned.  Binding a name leaves
the shape as it is (`shape_define`, `shape_assign`), and the operations that make, give up and
pin scopes change it as their names say (`shape_push`, `shape_free`, `Pinned.shape`).

The shape tells which scopes there are from a scope outwards (`Shape.Chain`), and how many
scopes are live (`liveCount_congr`).  An arena of the same shape that binds at least as much is
`Rebound`.
-/
import LoxLang.Proofs.Scope.Values
import Mathlib.Data.List.Count
import Mathlib.Data.List.GetD

namespace LoxLang

/-- For each handle that has a scope, the scope around it and whether it is pinned. -/
abbrev Shape := Handle → Option (Option Handle × Bool)

namespace Shape

/-- There is a scope with this handle, and it is pinned. -/
def Pinned (σ : Shape) (h : Handle) : Prop := ∃ p, σ h = some (p, true)

/-- With one more scope, made inside another one. -/
def push (σ : Shape) (s p : Handle) : Shape := fun h =>
  if h = s then some (some p, false) else σ h

/-- Every scope stays where it is, and pinned if it is pinned. -/
def Persists (σ τ : Shape) : Prop :=
  ∀ h p b, σ h = some (p, b) → ∃ b', τ h = some (p, b') ∧ (b = true → b' = true)

/-- Without a scope. -/
def free (σ : Shape) (s : Handle) : Shape := fun h => if h = s then none else σ h

/-- With some scopes pinned. -/
def pin (σ : Shape) (l : List Handle) : Shape := fun h =>
  if h ∈ l then (σ h).map fun x => (x.1, true) else σ h

variable {σ τ υ : Shape} {g h p s : Handle} {l l' : List Handle}

theorem Persists.refl (σ : Shape) : σ.Persists σ := fun _ _ b h => ⟨b, h, id⟩

theorem Persists.trans (hστ : σ.Persists τ) (hτυ : τ.Persists υ) : σ.Persists υ := by
  intro h p b hb
  obtain ⟨b', hb', himp⟩ := hστ h p b hb
  obtain ⟨b'', hb'', himp'⟩ := hτυ h p b' hb'
  exact ⟨b'', hb'', himp' ∘ himp⟩

theorem Persists.pinned (hστ : σ.Persists τ) (hh : σ.Pinned h) : τ.Pinned h := by
  obtain ⟨p, hp⟩ := hh
  obtain ⟨b', hb', himp⟩ := hστ h p true hp
  exact ⟨p, himp rfl ▸ hb'⟩

theorem Persists.push (hfree : σ s = none) (p : Handle) : σ.Persists (σ.push s p) := by
  intro h q b hb
  refine ⟨b, ?_, id⟩
  rw [Shape.push, if_neg, hb]
  rintro rfl
  rw [hfree] at hb
  cases hb

theorem Persists.pin (σ : Shape) (l : List Handle) : σ.Persists (σ.pin l) := by
  intro h q b hb
  by_cases hh : h ∈ l
  · exact ⟨true, by rw [Shape.pin, if_pos hh, hb]; rfl, fun _ => rfl⟩
  · exact ⟨b, (if_neg hh).trans hb, id⟩

theorem push_self (σ : Shape) (s p : Handle) : σ.push s p s = some (some p, false) := if_pos rfl

theorem push_of_ne (hne : h ≠ s) : σ.push s p h = σ h := if_neg hne

/-- A new scope is not pinned. -/
theorem pinned_of_push (hh : (σ.push s p).Pinned h) : σ.Pinned h := by
  obtain ⟨x, hx⟩ := hh
  by_cases heq : h = s
  · rw [heq, push_self] at hx
    cases hx
  · exact ⟨x, (push_of_ne heq).symm.trans hx⟩

theorem free_of_ne (hne : h ≠ s) : σ.free s h = σ h := if_neg hne

/-- A new scope that is given up at once leaves nothing behind. -/
theorem free_push (hfree : σ s = none) : (σ.push s p).free s = σ := by
  funext h
  by_cases hs : h = s
  · rw [free, if_pos hs, hs, hfree]
  · rw [free_of_ne hs, push_of_ne hs]

theorem pin_of_mem (hh : h ∈ l) {q : Option Handle} {b : Bool} (hs : σ h = some (q, b)) :
    σ.pin l h = some (q, true) := by
  rw [pin, if_pos hh, hs]
  rfl

theorem pin_of_not_mem (hh : h ∉ l) : σ.pin l h = σ h := if_neg hh

/-- Pinning what is pinned changes nothing. -/
theorem pin_of_pinned (hl : ∀ g ∈ l, σ.Pinned g) : σ.pin l = σ := by
  funext h
  by_cases hh : h ∈ l
  · obtain ⟨q, hq⟩ := hl h hh
    rw [pin_of_mem hh hq, hq]
  · exact pin_of_not_mem hh

/-- The scopes that are pinned afterwards are those that were, and the ones of the list. -/
theorem pinned_pin_iff (hl : ∀ g ∈ l, (σ g).isSome) :
    (σ.pin l).Pinned h ↔ σ.Pinned h ∨ h ∈ l := by
  by_cases hh : h ∈ l
  · obtain ⟨⟨q, b⟩, hq⟩ := Option.isSome_iff_exists.mp (hl h hh)
    exact iff_of_true ⟨q, pin_of_mem hh hq⟩ (.inr hh)
  · rw [Pinned, pin_of_not_mem hh]
    simp [Pinned, hh]

/-- From a scope outwards there are these scopes and no others, the innermost one first. -/
inductive Chain (σ : Shape) : Handle → List Handle → Prop where
  | last {h : Handle} {b : Bool} (scope : σ h = some (none, b)) : Chain σ h [h]
  | step {h p : Handle} {b : Bool} {l : List Handle} (scope : σ h = some (some p, b))
      (rest : Chain σ p l) : Chain σ h (h :: l)

namespace Chain

theorem isSome_of_mem (hl : Chain σ h l) (hg : g ∈ l) : (σ g).isSome := by
  induction hl with
  | last scope =>
    rw [List.mem_singleton.mp hg, scope]
    rfl
  | step scope rest ih =>
    rcases List.mem_cons.mp hg with rfl | hg
    · rw [scope]
      rfl
    · exact ih hg

theorem head_mem (hl : Chain σ h l) : h ∈ l := by
  cases hl with
  | last _ => exact List.mem_singleton_self _
  | step _ _ => exact List.mem_cons_self

/-- The way outwards from a scope on the way is the rest of it. -/
theorem exists_suffix (hl : Chain σ h l) (hg : g ∈ l) : ∃ k, Chain σ g k ∧ k <:+ l := by
  induction hl with
  | last scope =>
    rw [List.mem_singleton.mp hg]
    exact ⟨_, .last scope, List.suffix_refl _⟩
  | step scope rest ih =>
    rcases List.mem_cons.mp hg with rfl | hg
    · exact ⟨_, .step scope rest, List.suffix_refl _⟩
    · obtain ⟨k, hk, hkl⟩ := ih hg
      exact ⟨k, hk, hkl.trans (List.suffix_cons _ _)⟩

/-- There is but one way outwards. -/
theorem unique (hl : Chain σ h l) (hl' : Chain σ h l') : l = l' := by
  induction hl generalizing l' with
  | last scope =>
    cases hl' with
    | last _ => rfl
    | step scope' _ =>
      rw [scope] at scope'
      cases scope'
  | step scope rest ih =>
    cases hl' with
    | last scope' =>
      rw [scope] at scope'
      cases scope'
    | step scope' rest' =>
      rw [scope] at scope'
      cases scope'
      rw [ih rest']

/-- The way outwards depends on nothing but the scopes around the ones on it. -/
theorem congr (hl : Chain σ h l)
    (hparent : ∀ g ∈ l, ∀ q b, σ g = some (q, b) → ∃ b', τ g = some (q, b')) : Chain τ h l := by
  induction hl with
  | last scope =>
    obtain ⟨b', hb'⟩ := hparent _ (List.mem_singleton_self _) _ _ scope
    exact .last hb'
  | step scope rest ih =>
    obtain ⟨b', hb'⟩ := hparent _ List.mem_cons_self _ _ scope
    exact .step hb' (ih fun g hg => hparent g (List.mem_cons_of_mem _ hg))

end Chain

end Shape

namespace Arena

variable {κ α : Type} {a b : Arena κ α} {g h : Handle} {s : Scope κ α}

/-- What is left of an arena without the bindings. -/
def shape (a : Arena κ α) : Shape := fun h =>
  match a.scope h with
  | .ok s => some (s.parent, s.pinned)
  | .error _ => none

theorem shape_of_scope (hs : a.scope h = .ok s) : a.shape h = some (s.parent, s.pinned) := by
  rw [shape, hs]

theorem shape_congr (hscope : a.scope h = b.scope h) : a.shape h = b.shape h := by
  rw [shape, shape, hscope]

theorem shape_eq_some {p : Option Handle} {pinned : Bool} :
    a.shape h = some (p, pinned) ↔ ∃ s, a.scope h = .ok s ∧ s.parent = p ∧ s.pinned = pinned := by
  rw [shape]
  cases a.scope h with
  | ok s => simp
  | error r => simp

theorem isSome_shape_iff : (a.shape h).isSome ↔ ∃ s, a.scope h = .ok s := by
  rw [shape]
  cases a.scope h with
  | ok s => simp
  | error r => simp

theorem pinned_shape_iff : a.shape.Pinned h ↔ ∃ s, a.scope h = .ok s ∧ s.pinned = true := by
  constructor
  · rintro ⟨p, hp⟩
    obtain ⟨s, hs, -, hpinned⟩ := shape_eq_some.mp hp
    exact ⟨s, hs, hpinned⟩
  · rintro ⟨s, hs, hpinned⟩
    exact ⟨s.parent, shape_eq_some.mpr ⟨s, hs, rfl, hpinned⟩⟩

theorem shape_initial (h : Handle) :
    (initial : Arena κ α).shape h = if h = globals then some (none, true) else none := by
  cases h with
  | zero => rfl
  | succ h => rfl

/-! ### What the operations do to the shape -/

theorem shape_push (ha : a.Tidy) (p : Handle) :
    (a.push (some p)).1.shape = a.shape.push (a.push (some p)).2 p := by
  funext g
  by_cases hg : g = (a.push (some p)).2
  · rw [Shape.push, if_pos hg, shape, scope_push ha, if_pos hg]
  · rw [Shape.push_of_ne hg]
    exact shape_congr (by rw [scope_push ha, if_neg hg])

/-- A new scope has a handle that no other scope has. -/
theorem shape_fresh (ha : a.Tidy) (p : Option Handle) : a.shape (a.push p).2 = none := by
  rw [shape]
  cases hs : a.scope (a.push p).2 with
  | ok s => exact absurd hs (push_fresh ha p)
  | error r => rfl

theorem shape_free (hs : a.scope h = .ok s) : (a.free h).shape = a.shape.free h := by
  have hlt : h < a.slots.size := lt_size_of_scope hs
  funext g
  by_cases hg : g = h
  · subst hg
    have hslot : (a.free g).slots[g]? = some none := by simp [free, hlt]
    simp [shape, scope, hslot, Shape.free]
  · rw [Shape.free_of_ne hg]
    exact shape_congr (scope_free hg)

theorem Pinned.shape {l : List Handle} (hb : Pinned l a b) (hl : ∀ g ∈ l, (a.shape g).isSome) :
    b.shape = a.shape.pin l := by
  funext g
  by_cases hg : g ∈ l
  · obtain ⟨s, hs⟩ := isSome_shape_iff.mp (hl g hg)
    rw [Shape.pin_of_mem hg (shape_of_scope hs), shape_of_scope (hb.inside g hg s hs)]
  · rw [Shape.pin_of_not_mem hg]
    exact shape_congr (scope_congr (hb.outside g hg))

/-- A scope that has the same parent and is pinned or not as before makes no difference. -/
theorem shape_setSlot (hs : a.scope h = .ok s) {t : Scope κ α} (hparent : t.parent = s.parent)
    (hpinned : t.pinned = s.pinned) : (a.setSlot h (some t)).shape = a.shape := by
  funext g
  by_cases hg : g = h
  · subst hg
    rw [shape_of_scope (s := t) (by rw [scope_setSlot hs, if_pos rfl]), shape_of_scope hs, hparent,
      hpinned]
  · exact shape_congr (by rw [scope_setSlot hs, if_neg hg])

/-! ### Bindings -/

section Bindings

variable [DecidableEq κ] {k k' : κ} {v : α}

theorem shape_define (a : Arena κ α) (h : Handle) (k : κ) (v : α) :
    (a.define h k v).1.shape = a.shape := by
  rw [define]
  split
  · rfl
  · rename_i s hs
    exact shape_setSlot hs rfl rfl

theorem shape_assign (a : Arena κ α) (h : Handle) (k : κ) (v : α) :
    (a.assign h k v).1.shape = a.shape := by
  rw [assign]
  split
  · rfl
  · exact shape_define a _ k v

theorem Tidy.define (ha : a.Tidy) (h : Handle) (k : κ) (v : α) : (a.define h k v).1.Tidy := by
  rw [Arena.define]
  split
  · exact ha
  · rename_i s hs
    exact ha.setSlot hs _

theorem Tidy.assign (ha : a.Tidy) (h : Handle) (k : κ) (v : α) : (a.assign h k v).1.Tidy := by
  rw [Arena.assign]
  split
  · exact ha
  · exact ha.define _ k v

theorem mem_bindIn (k : κ) (v : α) (l : List (κ × α)) :
    (∃ e ∈ Scope.bindIn k v l, e.1 = k') ↔ k = k' ∨ ∃ e ∈ l, e.1 = k' := by
  induction l with
  | nil => simp [Scope.bindIn]
  | cons e rest ih =>
    rw [Scope.bindIn]
    split
    · rename_i heq
      subst heq
      simp
    · simp only [List.exists_mem_cons_iff, ih]
      tauto

theorem binds_bind (s : Scope κ α) (k : κ) (v : α) :
    (s.bind k v).binds k' ↔ k = k' ∨ s.binds k' := by
  simpa [Scope.binds, Scope.bind] using mem_bindIn k v s.bindings

/-- A scope that is there goes on to bind what it binds. -/
theorem bindsAt_define (hbinds : a.bindsAt k' g) (h : Handle) (k : κ) (v : α) :
    (a.define h k v).1.bindsAt k' g := by
  rw [define]
  split
  · exact hbinds
  · rename_i s hs
    by_cases hg : g = h
    · subst hg
      rw [bindsAt_of_scope hs] at hbinds
      rw [bindsAt_of_scope (s := s.bind k v) (by rw [scope_setSlot hs, if_pos rfl])]
      exact (binds_bind s k v).mpr (.inr hbinds)
    · rwa [bindsAt, scope_setSlot hs, if_neg hg]

theorem bindsAt_assign (hbinds : a.bindsAt k' g) (h : Handle) (k : κ) (v : α) :
    (a.assign h k v).1.bindsAt k' g := by
  rw [assign]
  split
  · exact hbinds
  · exact bindsAt_define hbinds _ k v

theorem bindsAt_define_self (hs : a.scope h = .ok s) (k : κ) (v : α) :
    (a.define h k v).1.bindsAt k h := by
  have hdefine : a.define h k v = (a.setSlot h (some (s.bind k v)), .ok ()) := by
    rw [define, hs]
  rw [hdefine, bindsAt_of_scope (s := s.bind k v) (by rw [scope_setSlot hs, if_pos rfl])]
  exact (binds_bind s k v).mpr (.inl rfl)

/-- The scopes are the same.  They bind what they did and maybe more, and something still holds of
all values. -/
structure Rebound (P : α → Prop) (a b : Arena κ α) : Prop where
  tidy : a.Tidy → b.Tidy
  shape : b.shape = a.shape
  holds : a.Holds P → b.Holds P
  bindsAt : ∀ k g, a.bindsAt k g → b.bindsAt k g

namespace Rebound

variable {P : α → Prop} {c : Arena κ α}

theorem refl (a : Arena κ α) : Rebound P a a := ⟨id, rfl, id, fun _ _ => id⟩

theorem trans (hab : Rebound P a b) (hbc : Rebound P b c) : Rebound P a c where
  tidy h := hbc.tidy (hab.tidy h)
  shape := hbc.shape.trans hab.shape
  holds h := hbc.holds (hab.holds h)
  bindsAt k g h := hbc.bindsAt k g (hab.bindsAt k g h)

theorem define (a : Arena κ α) (h : Handle) (k : κ) (hv : P v) :
    Rebound P a (a.define h k v).1 where
  tidy ha := ha.define h k v
  shape := shape_define a h k v
  holds ha := ha.define h k hv
  bindsAt _ _ hbinds := bindsAt_define hbinds h k v

theorem assign (a : Arena κ α) (h : Handle) (k : κ) (hv : P v) :
    Rebound P a (a.assign h k v).1 where
  tidy ha := ha.assign h k v
  shape := shape_assign a h k v
  holds ha := ha.assign h k hv
  bindsAt _ _ hbinds := bindsAt_assign hbinds h k v

end Rebound

/-- What a scope binds is told by its bindings. -/
theorem bindsAt_congr (hscope : ∀ s, a.scope g = .ok s →
    ∃ t, b.scope g = .ok t ∧ t.bindings = s.bindings) (hbinds : a.bindsAt k g) :
    b.bindsAt k g := by
  rw [bindsAt] at hbinds
  split at hbinds
  · rename_i s hs
    obtain ⟨t, ht, heq⟩ := hscope s hs
    rw [bindsAt_of_scope ht, Scope.binds, heq]
    exact hbinds
  · cases hbinds

theorem bindsAt_push (ha : a.Tidy) (p : Option Handle) (hbinds : a.bindsAt k g) :
    (a.push p).1.bindsAt k g := by
  refine bindsAt_congr (fun s hs => ⟨s, ?_, rfl⟩) hbinds
  have hne : g ≠ (a.push p).2 := by
    rintro rfl
    exact push_fresh ha p hs
  rwa [scope_push ha, if_neg hne]

theorem bindsAt_free (hne : g ≠ h) (hbinds : a.bindsAt k g) : (a.free h).bindsAt k g :=
  bindsAt_congr (fun s hs => ⟨s, by rwa [scope_free hne], rfl⟩) hbinds

theorem Pinned.bindsAt {l : List Handle} (hb : Pinned l a b) (hbinds : a.bindsAt k g) :
    b.bindsAt k g := by
  refine bindsAt_congr (fun s hs => ?_) hbinds
  by_cases hg : g ∈ l
  · exact ⟨_, hb.inside g hg s hs, rfl⟩
  · exact ⟨s, by rwa [scope_congr (hb.outside g hg)], rfl⟩

end Bindings

/-! ### What the shape tells -/

/-- The way outwards is told by the shape. -/
theorem outward_of_chain {l : List Handle} (hl : a.shape.Chain h l) : a.Outward h l := by
  induction hl with
  | last scope =>
    obtain ⟨s, hs, hparent, -⟩ := shape_eq_some.mp scope
    exact .last hs hparent
  | step scope rest ih =>
    obtain ⟨s, hs, hparent, -⟩ := shape_eq_some.mp scope
    exact .step hs hparent ih

theorem isSome_shape (a : Arena κ α) (h : Handle) :
    (a.shape h).isSome = a.slots[h]?.any Option.isSome := by
  rw [shape, scope]
  rcases a.slots[h]? with _ | _ | s
  · rfl
  · rfl
  · rfl

/-- The live scopes are counted over any bound on the handles. -/
theorem liveCount_eq (a : Arena κ α) {n : Nat} (hn : a.slots.size ≤ n) :
    a.liveCount = (List.range n).countP fun h => (a.shape h).isSome := by
  obtain ⟨k, rfl⟩ := Nat.exists_eq_add_of_le hn
  have hslots : (List.range a.slots.size).map (a.slots[·]?) = a.slots.toList.map some := by
    refine List.ext_getElem (by simp) fun i hi _ => ?_
    simp [Array.getElem?_eq_getElem (show i < a.slots.size by simpa using hi)]
  have hrest : (List.range k).countP ((fun h => a.slots[h]?.any Option.isSome) ∘ (a.slots.size + ·))
      = 0 := by
    simp [List.countP_eq_zero]
  simp only [isSome_shape]
  rw [List.range_add, List.countP_append, List.countP_map, hrest, Nat.add_zero, liveCount]
  calc a.slots.toList.countP Option.isSome
      = (a.slots.toList.map some).countP (Option.any Option.isSome) := by
        rw [List.countP_map]
        rfl
    _ = (List.range a.slots.size).countP fun h => a.slots[h]?.any Option.isSome := by
        rw [← hslots, List.countP_map]
        rfl

/-- Arenas of one shape have the same number of live scopes. -/
theorem liveCount_congr (h : ∀ g, (a.shape g).isSome = (b.shape g).isSome) :
    a.liveCount = b.liveCount := by
  rw [a.liveCount_eq (Nat.le_max_left _ b.slots.size), b.liveCount_eq (Nat.le_max_right a.slots.size _)]
  simp only [h]

end Arena

end LoxLang
