/-
One arena of scopes.

* What each operation does to the scope behind a handle: `scope_push`, `scope_setSlot`,
  `scope_free`.
* Which handle a new scope gets: `push_fresh`.
* What the walks outwards do, for a scope around which there are finitely many
  (`Arena.Outward`): `Outward.binder` and `Outward.pin`.
-/
import LoxLang.Scope.Arena
import Mathlib.Data.List.Range
import Mathlib.Data.List.Perm.Subperm

namespace LoxLang

namespace Arena

variable {κ α : Type} {a : Arena κ α} {g h : Handle} {s t : Scope κ α}

/-! ### The scope behind a handle -/

theorem scope_eq_ok : a.scope h = .ok s ↔ a.slots[h]? = some (some s) := by
  unfold scope
  split
  · simp_all
  · simp_all
  · simp_all

theorem lt_size_of_scope (hs : a.scope h = .ok s) : h < a.slots.size := by
  obtain ⟨hlt, -⟩ := Array.getElem?_eq_some_iff.mp (scope_eq_ok.mp hs)
  exact hlt

theorem scope_unique (hs : a.scope h = .ok s) (ht : a.scope h = .ok t) : s = t := by
  rw [hs] at ht
  injection ht

/-- The scope behind a handle depends on nothing but the slot. -/
theorem scope_congr {b : Arena κ α} (hslot : a.slots[h]? = b.slots[h]?) :
    a.scope h = b.scope h := by
  rw [scope, scope, hslot]

/-- Only empty slots are vacant, and each of them once. -/
def Tidy (a : Arena κ α) : Prop :=
  a.vacant.Nodup ∧ ∀ h ∈ a.vacant, a.slots[h]? = some none

theorem Tidy.of_vacant_nil (h : a.vacant = []) : a.Tidy := by
  rw [Tidy, h]
  simp

theorem Tidy.not_mem (ha : a.Tidy) (hs : a.scope h = .ok s) : h ∉ a.vacant := by
  intro hmem
  have hnone := ha.2 h hmem
  rw [scope_eq_ok.mp hs] at hnone
  simp at hnone

/-! ### Changing a scope -/

theorem scope_setSlot (hs : a.scope h = .ok s) (t : Scope κ α) (g : Handle) :
    (a.setSlot h (some t)).scope g = if g = h then .ok t else a.scope g := by
  have hlt := lt_size_of_scope hs
  split
  · rename_i hgh
    subst hgh
    rw [scope_eq_ok]
    simp [setSlot, hlt]
  · rename_i hgh
    apply scope_congr
    simp [setSlot, Array.getElem?_setIfInBounds_ne (Ne.symm hgh)]

@[simp] theorem setSlot_size (a : Arena κ α) (h : Handle) (c : Option (Scope κ α)) :
    (a.setSlot h c).slots.size = a.slots.size := by
  simp [setSlot]

theorem Tidy.setSlot (ha : a.Tidy) (hs : a.scope h = .ok s) (t : Scope κ α) :
    (a.setSlot h (some t)).Tidy := by
  refine ⟨ha.1, fun g hg => ?_⟩
  have hne : h ≠ g := by
    rintro rfl
    exact ha.not_mem hs hg
  rw [← ha.2 g hg]
  simp [Arena.setSlot, Array.getElem?_setIfInBounds_ne hne]

/-! ### Making and giving up a scope -/

theorem scope_push (ha : a.Tidy) (p : Option Handle) (g : Handle) :
    (a.push p).1.scope g = if g = (a.push p).2 then .ok ⟨p, [], false⟩ else a.scope g := by
  obtain ⟨slots, vacant⟩ := a
  cases vacant with
  | nil =>
    split
    · rename_i hg
      subst hg
      rw [scope_eq_ok]
      simp [push]
    · rename_i hg
      apply scope_congr
      simp only [push] at hg ⊢
      rw [Array.getElem?_push, if_neg hg]
  | cons h rest =>
    -- The vacant slot is one of the array, so that what is put there is found there.
    have hempty := ha.2 h (by simp)
    obtain ⟨hlt, -⟩ := Array.getElem?_eq_some_iff.mp hempty
    split
    · rename_i hg
      subst hg
      rw [scope_eq_ok]
      have hlt' : g < slots.size := hlt
      simp [push, hlt']
    · rename_i hg
      apply scope_congr
      simp only [push] at hg ⊢
      rw [Array.getElem?_setIfInBounds_ne (Ne.symm hg)]

/-- A new scope gets a handle behind which there is none. -/
theorem push_fresh (ha : a.Tidy) (p : Option Handle) : a.scope (a.push p).2 ≠ .ok s := by
  obtain ⟨slots, vacant⟩ := a
  cases vacant with
  | nil =>
    intro hs
    have := lt_size_of_scope hs
    simp [push] at this
  | cons h rest =>
    intro hs
    exact ha.not_mem hs (by simp [push])

theorem Tidy.push (ha : a.Tidy) (p : Option Handle) : (a.push p).1.Tidy := by
  obtain ⟨slots, vacant⟩ := a
  cases vacant with
  | nil => exact .of_vacant_nil rfl
  | cons h rest =>
    obtain ⟨hnodup, hempty⟩ := ha
    obtain ⟨hnot, hrest⟩ := List.nodup_cons.mp hnodup
    refine ⟨hrest, fun g hg => ?_⟩
    have hne : h ≠ g := by
      rintro rfl
      exact hnot hg
    simp only [Arena.push, Array.getElem?_setIfInBounds_ne hne]
    exact hempty g (List.mem_cons_of_mem h hg)

/-- Where no slot is vacant, handles are given out in order. -/
theorem push_of_vacant_nil (h : a.vacant = []) (p : Option Handle) :
    (a.push p).1.vacant = [] ∧ (a.push p).2 = a.slots.size := by
  obtain ⟨slots, vacant⟩ := a
  cases h
  exact ⟨rfl, rfl⟩

theorem scope_free (hne : g ≠ h) : (a.free h).scope g = a.scope g := by
  apply scope_congr
  simp [free, Array.getElem?_setIfInBounds_ne (Ne.symm hne)]

theorem Tidy.free (ha : a.Tidy) (hs : a.scope h = .ok s) : (a.free h).Tidy := by
  have hlt := lt_size_of_scope hs
  refine ⟨List.nodup_cons.mpr ⟨ha.not_mem hs, ha.1⟩, fun g hg => ?_⟩
  rcases List.mem_cons.mp hg with rfl | hg
  · simp [Arena.free, hlt]
  · have hne : h ≠ g := by
      rintro rfl
      exact ha.not_mem hs hg
    simp only [Arena.free, Array.getElem?_setIfInBounds_ne hne]
    exact ha.2 g hg

/-! ### The scopes around a scope -/

/-- From a scope outwards there are these scopes and no others, the innermost one first. -/
inductive Outward (a : Arena κ α) : Handle → List Handle → Prop where
  | last {h : Handle} {s : Scope κ α} (scope : a.scope h = .ok s) (parent : s.parent = none) :
    Outward a h [h]
  | step {h p : Handle} {s : Scope κ α} {l : List Handle} (scope : a.scope h = .ok s)
      (parent : s.parent = some p) (rest : Outward a p l) : Outward a h (h :: l)

theorem Outward.scope_of_mem {l : List Handle} (hl : Outward a h l) (hg : g ∈ l) :
    ∃ s, a.scope g = .ok s := by
  induction hl with
  | last scope parent =>
    obtain rfl := List.mem_singleton.mp hg
    exact ⟨_, scope⟩
  | step scope parent rest ih =>
    rcases List.mem_cons.mp hg with rfl | hg
    · exact ⟨_, scope⟩
    · exact ih hg

theorem Outward.scope_of_head {l : List Handle} (hl : Outward a h l) :
    ∃ s, a.scope h = .ok s := by
  cases hl with
  | last scope _ => exact ⟨_, scope⟩
  | step scope _ _ => exact ⟨_, scope⟩

/-- The walk outwards goes on with the scope around each one. -/
theorem Outward.parent_mem {l : List Handle} (hl : Outward a h l) (hg : g ∈ l)
    (hs : a.scope g = .ok s) {p : Handle} (hp : s.parent = some p) : p ∈ l := by
  induction hl with
  | last scope parent =>
    obtain rfl := List.mem_singleton.mp hg
    rw [← scope_unique hs scope, hp] at parent
    cases parent
  | step scope parent rest ih =>
    rcases List.mem_cons.mp hg with rfl | hg
    · rw [← scope_unique hs scope, hp] at parent
      injection parent with hpq
      subst hpq
      cases rest with
      | last _ _ => simp
      | step _ _ _ => simp
    · exact List.mem_cons_of_mem _ (ih hg)

/-- Scopes that are told apart are not more than there are slots. -/
theorem Outward.length_le {l : List Handle} (hl : Outward a h l) (hnodup : l.Nodup) :
    l.length ≤ a.slots.size := by
  have hsub : l ⊆ List.range a.slots.size := by
    intro g hg
    obtain ⟨s, hs⟩ := hl.scope_of_mem hg
    exact List.mem_range.mpr (lt_size_of_scope hs)
  simpa using (hnodup.subperm hsub).length_le

/-- The scopes outwards depend on nothing but the scopes around each of them. -/
theorem Outward.congr {b : Arena κ α} {l : List Handle} (hl : Outward a h l)
    (hparent : ∀ g ∈ l, ∀ s, a.scope g = .ok s →
      ∃ t, b.scope g = .ok t ∧ t.parent = s.parent) : Outward b h l := by
  induction hl with
  | last scope parent =>
    obtain ⟨t, ht, htp⟩ := hparent _ (by simp) _ scope
    exact .last ht (htp.trans parent)
  | step scope parent rest ih =>
    obtain ⟨t, ht, htp⟩ := hparent _ (by simp) _ scope
    refine .step ht (htp.trans parent) (ih fun g hg => hparent g (by simp [hg]))

/-! ### Pinning -/

/-- The scopes of a list are pinned in `b`, and all else is as in `a`. -/
structure Pinned (l : List Handle) (a b : Arena κ α) : Prop where
  vacant : b.vacant = a.vacant
  size : b.slots.size = a.slots.size
  inside : ∀ g ∈ l, ∀ s, a.scope g = .ok s → b.scope g = .ok { s with pinned := true }
  outside : ∀ g, g ∉ l → b.slots[g]? = a.slots[g]?

theorem Pinned.refl {l : List Handle}
    (h : ∀ g ∈ l, ∀ s, a.scope g = .ok s → s.pinned = true) : Pinned l a a where
  vacant := rfl
  size := rfl
  inside g hg s hs := by
    have hpinned := h g hg s hs
    rw [hs]
    cases s
    cases hpinned
    rfl
  outside _ _ := rfl

theorem Pinned.tidy {b : Arena κ α} {l : List Handle} (hb : Pinned l a b) (ha : a.Tidy)
    (hl : ∀ g ∈ l, ∃ s, a.scope g = .ok s) : b.Tidy := by
  rw [Tidy, hb.vacant]
  refine ⟨ha.1, fun g hg => ?_⟩
  rw [hb.outside g ?_]
  · exact ha.2 g hg
  · intro hgl
    obtain ⟨s, hs⟩ := hl g hgl
    exact ha.not_mem hs hg

/-- Pinning one scope and then the ones around it. -/
theorem Pinned.cons {b : Arena κ α} {l : List Handle} (hs : a.scope h = .ok s)
    (hnot : h ∉ l) (hb : Pinned l (a.setSlot h (some { s with pinned := true })) b) :
    Pinned (h :: l) a b where
  vacant := hb.vacant
  size := by rw [hb.size, setSlot_size]
  inside g hg t ht := by
    rcases List.mem_cons.mp hg with rfl | hgl
    · obtain rfl : s = t := scope_unique hs ht
      rw [scope_congr (hb.outside g hnot), scope_setSlot hs, if_pos rfl]
    · have hne : g ≠ h := by
        rintro rfl
        exact hnot hgl
      refine hb.inside g hgl t ?_
      rw [scope_setSlot hs, if_neg hne, ht]
  outside g hg := by
    obtain ⟨hne, hgl⟩ := not_or.mp (mt List.mem_cons.mpr hg)
    rw [hb.outside g hgl]
    simp [setSlot, Array.getElem?_setIfInBounds_ne (Ne.symm hne)]

/-- The scope around a pinned one is pinned, for the scopes of a list. -/
def PinnedOutwards (a : Arena κ α) (l : List Handle) : Prop :=
  ∀ g ∈ l, ∀ s, a.scope g = .ok s → s.pinned = true →
    ∀ p, s.parent = some p → ∀ t, a.scope p = .ok t → t.pinned = true

theorem Outward.all_pinned {l : List Handle} (hl : Outward a h l) (hclosed : a.PinnedOutwards l)
    (hs : a.scope h = .ok s) (hpinned : s.pinned = true) :
    ∀ g ∈ l, ∀ t, a.scope g = .ok t → t.pinned = true := by
  induction hl generalizing s with
  | last scope parent =>
    intro g hg t ht
    obtain rfl := List.mem_singleton.mp hg
    rwa [← scope_unique hs ht]
  | @step h p s' l scope parent rest ih =>
    obtain rfl : s = s' := scope_unique hs scope
    intro g hg t ht
    rcases List.mem_cons.mp hg with rfl | hgl
    · rwa [← scope_unique hs ht]
    · obtain ⟨q, hq⟩ := rest.scope_of_head
      have hqpinned := hclosed h (by simp) s hs hpinned p parent q hq
      exact ih (fun g hg => hclosed g (List.mem_cons_of_mem h hg)) hq hqpinned g hgl t ht

/-- Pinning one scope leaves the walk from the scope around it as it was. -/
theorem Outward.after_setSlot {p : Handle} {l : List Handle} (hl : Outward a p l)
    (hs : a.scope h = .ok s) :
    Outward (a.setSlot h (some { s with pinned := true })) p l := by
  refine hl.congr fun g _ t ht => ?_
  rw [scope_setSlot hs]
  split
  · rename_i hgh
    subst hgh
    obtain rfl : s = t := scope_unique hs ht
    exact ⟨_, rfl, rfl⟩
  · exact ⟨t, ht, rfl⟩

theorem PinnedOutwards.after_setSlot {l : List Handle} (hclosed : a.PinnedOutwards (h :: l))
    (hnot : h ∉ l) (hs : a.scope h = .ok s) :
    (a.setSlot h (some { s with pinned := true })).PinnedOutwards l := by
  intro g hg t ht hpinned p hp q hq
  have hne : g ≠ h := by
    rintro rfl
    exact hnot hg
  rw [scope_setSlot hs, if_neg hne] at ht
  rw [scope_setSlot hs] at hq
  split at hq
  · injection hq with hq
    rw [← hq]
  · exact hclosed g (List.mem_cons_of_mem h hg) t ht hpinned p hp q hq

/-- The walk that pins stops at the first pinned scope, yet pins all of them. -/
theorem Outward.pinUpTo {l : List Handle} (hl : Outward a h l) (hnodup : l.Nodup)
    (hclosed : a.PinnedOutwards l) {n : Nat} (hn : l.length ≤ n) :
    ∃ b, a.pinUpTo n h = (b, .ok ()) ∧ Pinned l a b := by
  induction l generalizing a h n with
  | nil => cases hl
  | cons _ l ih =>
    obtain ⟨hnot, hnodup'⟩ := List.nodup_cons.mp hnodup
    obtain ⟨n, rfl⟩ : ∃ i, n = i + 1 := ⟨n - 1, by simp at hn; omega⟩
    obtain ⟨s, hs⟩ := hl.scope_of_head
    -- The walk stops here if the scope is pinned; then so are all the others.
    by_cases hpinned : s.pinned = true
    · refine ⟨a, by simp [Arena.pinUpTo, hs, hpinned], .refl ?_⟩
      exact hl.all_pinned hclosed hs hpinned
    · cases hl with
      | @last _ s' scope parent =>
        obtain rfl : s = s' := scope_unique hs scope
        refine ⟨_, ?_, .cons hs hnot (.refl (by simp))⟩
        simp [Arena.pinUpTo, hs, hpinned, parent]
      | @step _ p s' _ scope parent rest =>
        obtain rfl : s = s' := scope_unique hs scope
        -- The rest of the walk is made in the arena in which this scope is pinned.
        obtain ⟨b, hb, hpin⟩ := ih (rest.after_setSlot hs) hnodup'
          (hclosed.after_setSlot hnot hs) (by simpa using hn)
        refine ⟨b, ?_, .cons hs hnot hpin⟩
        rw [← hb]
        simp [Arena.pinUpTo, hs, hpinned, parent]

/-- Pinning a scope pins it and all scopes around it, and changes nothing else. -/
theorem Outward.pin {l : List Handle} (hl : Outward a h l) (hnodup : l.Nodup)
    (hclosed : a.PinnedOutwards l) : ∃ b, a.pin h = (b, .ok ()) ∧ Pinned l a b := by
  have hlength := hl.length_le hnodup
  exact hl.pinUpTo hnodup hclosed (by omega)

/-! ### Looking for a key -/

variable [DecidableEq κ] {k : κ}

/-- Whether there is a scope behind a handle and it binds a key. -/
def bindsAt (a : Arena κ α) (k : κ) (h : Handle) : Bool :=
  match a.scope h with
  | .ok s => s.binds k
  | .error _ => false

theorem bindsAt_of_scope (hs : a.scope h = .ok s) : a.bindsAt k h = s.binds k := by
  rw [bindsAt, hs]

theorem Outward.resolveUpTo {l : List Handle} (hl : Outward a h l) {n : Nat}
    (hn : l.length ≤ n) : a.resolveUpTo k n h = .ok (l.find? (a.bindsAt k)) := by
  -- The walk that looks for a key is the walk outwards, scope by scope.
  induction hl generalizing n with
  | @last h s scope parent =>
    obtain ⟨n, rfl⟩ : ∃ i, n = i + 1 := ⟨n - 1, by simp at hn; omega⟩
    have hbinds := bindsAt_of_scope (k := k) scope
    rw [Arena.resolveUpTo, scope]
    cases hk : s.binds k with
    | true => simp [hk, hbinds]
    | false => simp [hk, hbinds, parent]
  | @step h p s l scope parent rest ih =>
    obtain ⟨n, rfl⟩ : ∃ i, n = i + 1 := ⟨n - 1, by simp at hn; omega⟩
    have hbinds := bindsAt_of_scope (k := k) scope
    have hlength : l.length ≤ n := by simpa using hn
    rw [Arena.resolveUpTo, scope]
    cases hk : s.binds k with
    | true => simp [hk, hbinds]
    | false => simp [hk, hbinds, parent, ih hlength]

/-- A name resolves to the first scope outwards that binds it. -/
theorem Outward.resolve {l : List Handle} (hl : Outward a h l) (hnodup : l.Nodup) :
    a.resolve h k = .ok (l.find? (a.bindsAt k)) := by
  have hlength := hl.length_le hnodup
  exact hl.resolveUpTo (by omega)

/-- The scope that binds a key is the first one outwards that does. -/
theorem Outward.binder {l : List Handle} (hl : Outward a h l) (hnodup : l.Nodup) :
    a.binder h k = match l.find? (a.bindsAt k) with
      | some g => .ok g
      | none => .error .unbound := by
  rw [Arena.binder, hl.resolve hnodup]
  cases l.find? (a.bindsAt k) <;> rfl

end Arena

end LoxLang
