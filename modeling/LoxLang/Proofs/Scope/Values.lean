/-
The values that an arena holds.

`Arena.values` are all values that are bound in some scope.  No operation on scopes makes one up:
what holds of the values before, and of a value that is bound, holds of the values afterwards
(`Arena.Holds`), and of a value that is looked up (`Arena.Holds.get`).
-/
import LoxLang.Proofs.Scope.Walk
import Mathlib.Data.List.ReduceOption

namespace LoxLang

variable {κ α : Type}

/-- The values that are bound in a scope. -/
def Scope.values (s : Scope κ α) : List α := s.bindings.map (·.2)

theorem Scope.mem_values_of_find [DecidableEq κ] {s : Scope κ α} {k : κ} {v : α}
    (h : s.find? k = some v) : v ∈ s.values := by
  obtain ⟨e, he, rfl⟩ := Option.map_eq_some_iff.mp h
  exact List.mem_map_of_mem (List.mem_of_find?_eq_some he)

/-- The values that are bound in the scopes of an arena. -/
def Arena.values (a : Arena κ α) : List α :=
  a.slots.toList.reduceOption.flatMap Scope.values

namespace Arena

variable {a : Arena κ α} {P : α → Prop} {h g : Handle} {s : Scope κ α} {k : κ} {v : α}

theorem mem_values_iff :
    v ∈ a.values ↔ ∃ (h : Handle) (s : Scope κ α), a.slots[h]? = some (some s) ∧ v ∈ s.values := by
  simp only [values, List.mem_flatMap, List.reduceOption_mem_iff, Array.mem_toList_iff,
    Array.mem_iff_getElem?]
  constructor
  · rintro ⟨s, ⟨h, hs⟩, hv⟩
    exact ⟨h, s, hs, hv⟩
  · rintro ⟨h, s, hs, hv⟩
    exact ⟨s, ⟨h, hs⟩, hv⟩

/-- Something holds of every value that is bound. -/
def Holds (P : α → Prop) (a : Arena κ α) : Prop := ∀ v ∈ a.values, P v

theorem holds_iff :
    a.Holds P ↔ ∀ (h : Handle) (s : Scope κ α), a.slots[h]? = some (some s) → ∀ v ∈ s.values, P v := by
  simp only [Holds, mem_values_iff]
  constructor
  · exact fun hP h s hs v hv => hP v ⟨h, s, hs, hv⟩
  · rintro hP v ⟨h, s, hs, hv⟩
    exact hP h s hs v hv

theorem holds_initial : (initial : Arena κ α).Holds P := by
  intro v hv
  exact absurd hv List.not_mem_nil

namespace Holds

theorem scope (ha : a.Holds P) (hs : a.scope h = .ok s) : ∀ v ∈ s.values, P v :=
  holds_iff.mp ha h s (scope_eq_ok.mp hs)

/-- Another content of a slot. -/
theorem set (ha : a.Holds P) {c : Option (Scope κ α)} (hc : ∀ s ∈ c, ∀ v ∈ s.values, P v)
    (vacant : List Handle) :
    Holds P (⟨a.slots.setIfInBounds h c, vacant⟩ : Arena κ α) := by
  rw [holds_iff] at ha ⊢
  intro g s hs
  rw [Array.getElem?_setIfInBounds] at hs
  split at hs
  · split at hs
    · injection hs with hs
      exact hc s hs
    · cases hs
  · exact ha g s hs

theorem push (ha : a.Holds P) (p : Option Handle) : (a.push p).1.Holds P := by
  obtain ⟨slots, vacant⟩ := a
  cases vacant with
  | nil =>
    rw [holds_iff] at ha ⊢
    intro g s hs
    rw [Arena.push, Array.getElem?_push] at hs
    split at hs
    · cases hs
      exact fun v hv => absurd hv List.not_mem_nil
    · exact ha g s hs
  | cons h rest =>
    refine ha.set ?_ rest
    intro s hs
    cases hs
    exact fun v hv => absurd hv List.not_mem_nil

theorem release (ha : a.Holds P) (h : Handle) : (a.release h).1.Holds P := by
  rw [Arena.release]
  split
  · exact ha
  · dsimp only
    split
    · exact ha
    · exact ha.set (fun s hs => by cases hs) _

theorem pinUpTo (ha : a.Holds P) (n : Nat) (h : Handle) : (a.pinUpTo n h).1.Holds P := by
  induction n generalizing a h with
  | zero => exact ha
  | succ n ih =>
    rw [Arena.pinUpTo]
    split
    · exact ha
    · rename_i s hs
      split
      · exact ha
      · have hset : (a.setSlot h (some { s with pinned := true })).Holds P := by
          refine ha.set (fun t ht => ?_) _
          cases ht
          have hvalues := ha.scope hs
          exact hvalues
        dsimp only
        split
        · exact hset
        · exact ih hset _

theorem pin (ha : a.Holds P) (h : Handle) : (a.pin h).1.Holds P :=
  ha.pinUpTo _ h

variable [DecidableEq κ]

theorem bindIn (l : List (κ × α)) (hl : ∀ e ∈ l, P e.2) (hv : P v) :
    ∀ e ∈ Scope.bindIn k v l, P e.2 := by
  induction l with
  | nil => exact List.forall_mem_singleton.mpr hv
  | cons e rest ih =>
    obtain ⟨he, hrest⟩ := List.forall_mem_cons.mp hl
    rw [Scope.bindIn]
    split
    · exact List.forall_mem_cons.mpr ⟨hv, hrest⟩
    · exact List.forall_mem_cons.mpr ⟨he, ih hrest⟩

theorem define (ha : a.Holds P) (h : Handle) (k : κ) (hv : P v) : (a.define h k v).1.Holds P := by
  rw [Arena.define]
  split
  · exact ha
  · rename_i s hs
    refine ha.set (fun t ht => ?_) _
    cases ht
    rw [Scope.values, List.forall_mem_map]
    exact bindIn _ (List.forall_mem_map.mp (ha.scope hs)) hv

theorem assign (ha : a.Holds P) (h : Handle) (k : κ) (hv : P v) : (a.assign h k v).1.Holds P := by
  rw [Arena.assign]
  split
  · exact ha
  · exact ha.define _ k hv

/-- A value that is looked up is one that the arena holds. -/
theorem get (ha : a.Holds P) (hget : a.get h k = .ok v) : P v := by
  simp only [Arena.get, Bind.bind, Except.bind] at hget
  generalize a.binder h k = binder at hget
  rcases binder with r | b
  · cases hget
  dsimp only at hget
  rcases hs : a.scope b with r | s
  · rw [hs] at hget
    cases hget
  rw [hs] at hget
  dsimp only at hget
  rcases hfind : s.find? k with _ | w
  · rw [hfind] at hget
    cases hget
  rw [hfind] at hget
  cases hget
  exact ha.scope hs v (Scope.mem_values_of_find hfind)

end Holds

end Arena

end LoxLang
