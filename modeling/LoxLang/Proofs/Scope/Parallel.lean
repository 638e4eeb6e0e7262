/-
Two arenas with alike scopes behind the same handles.

`Arena.Like` says that two arenas have the same scopes, live or given up, behind the same handles,
and that values which correspond are bound to the same keys.  No operation on scopes looks at a
value.  So every one of them keeps this up and is refused on both sides or on neither:

* `Like.push`, `Like.release`, `Like.pin` — making scopes, giving them up and keeping them;
* `Like.define`, `Like.assign`, `Like.get` — bindings.
-/
import LoxLang.Proofs.Scope.Renaming

namespace LoxLang

/-- The same refusal, or answers that correspond. -/
inductive SameAnswer {α β : Type} (results : α → β → Prop) :
    Except Refusal α → Except Refusal β → Prop where
  | ok {a : α} {b : β} (h : results a b) : SameAnswer results (.ok a) (.ok b)
  | error {r : Refusal} : SameAnswer results (.error r) (.error r)

variable {κ α : Type} {V : α → α → Prop}

/-- Two scopes with the same keys bound in the same order. -/
structure Scope.Like (V : α → α → Prop) (s t : Scope κ α) : Prop where
  parent : s.parent = t.parent
  bindings : List.Forall₂ (SameBinding V) s.bindings t.bindings
  pinned : s.pinned = t.pinned

namespace Arena

/-- Two arenas with alike scopes behind the same handles. -/
structure Like (V : α → α → Prop) (a b : Arena κ α) : Prop where
  size : a.slots.size = b.slots.size
  slots (h : Handle) : Option.Rel (Option.Rel (Scope.Like V)) a.slots[h]? b.slots[h]?
  vacant : a.vacant = b.vacant

/-- The answer of an operation that changes the arena, and the arena afterwards. -/
def SameStep {β γ : Type} (V : α → α → Prop) (results : β → γ → Prop)
    (x : Arena κ α × Except Refusal β) (y : Arena κ α × Except Refusal γ) : Prop :=
  x.1.Like V y.1 ∧ SameAnswer results x.2 y.2

variable {a b : Arena κ α} {h : Handle} {k : κ} {v w : α}

theorem like_initial : (initial : Arena κ α).Like V initial where
  size := rfl
  slots h := by
    cases h with
    | zero => exact .some (.some ⟨rfl, .nil, rfl⟩)
    | succ h => exact .none
  vacant := rfl

namespace Like

/-- Other contents of a slot that are alike. -/
theorem set (hab : a.Like V b) (h : Handle) {c d : Option (Scope κ α)}
    (hcd : Option.Rel (Scope.Like V) c d) (vacant : List Handle) :
    Like V (⟨a.slots.setIfInBounds h c, vacant⟩ : Arena κ α)
      ⟨b.slots.setIfInBounds h d, vacant⟩ where
  size := by rw [Array.size_setIfInBounds, Array.size_setIfInBounds, hab.size]
  slots g := by
    rw [Array.getElem?_setIfInBounds, Array.getElem?_setIfInBounds, hab.size]
    split
    · split
      · exact .some hcd
      · exact .none
    · exact hab.slots g
  vacant := rfl

theorem setSlot (hab : a.Like V b) (h : Handle) {s t : Scope κ α} (hst : s.Like V t) :
    (a.setSlot h (some s)).Like V (b.setSlot h (some t)) := by
  have hset := hab.set h (.some hst) a.vacant
  rw [Arena.setSlot, Arena.setSlot, ← hab.vacant]
  exact hset

theorem scope (hab : a.Like V b) (h : Handle) :
    SameAnswer (Scope.Like V) (a.scope h) (b.scope h) := by
  have hslot := hab.slots h
  rw [Arena.scope, Arena.scope]
  generalize a.slots[h]? = x, b.slots[h]? = y at hslot ⊢
  cases hslot with
  | none => exact .error
  | some hslot =>
    cases hslot with
    | none => exact .error
    | some hst => exact .ok hst

/-! ### Scopes -/

theorem push (hab : a.Like V b) (parent : Option Handle) :
    (a.push parent).1.Like V (b.push parent).1 ∧ (a.push parent).2 = (b.push parent).2 := by
  have hnew : Scope.Like V (⟨parent, [], false⟩ : Scope κ α) ⟨parent, [], false⟩ :=
    ⟨rfl, .nil, rfl⟩
  have hset := fun h rest => hab.set h (.some hnew) rest
  have hslots := hab.slots
  have hsize := hab.size
  have hvacant := hab.vacant
  obtain ⟨slots, vacant⟩ := a
  obtain ⟨slots', vacant'⟩ := b
  obtain rfl : vacant = vacant' := hvacant
  cases vacant with
  | nil =>
    refine ⟨⟨?_, fun g => ?_, rfl⟩, hsize⟩
    · rw [Arena.push, Arena.push, Array.size_push, Array.size_push]
      exact congrArg (· + 1) hsize
    · rw [Arena.push, Arena.push, Array.getElem?_push, Array.getElem?_push]
      dsimp only at hsize hslots
      rw [hsize]
      split
      · exact .some (.some hnew)
      · exact hslots g
  | cons h rest => exact ⟨hset h rest, rfl⟩

theorem release (hab : a.Like V b) (h : Handle) :
    SameStep V (· = ·) (a.release h) (b.release h) := by
  have hscope := hab.scope h
  rw [Arena.release, Arena.release]
  generalize a.scope h = x, b.scope h = y at hscope ⊢
  cases hscope with
  | error => exact ⟨hab, .error⟩
  | ok hst =>
    refine ⟨?_, .ok rfl⟩
    dsimp only
    rw [hst.pinned]
    split
    · exact hab
    · rw [Arena.free, Arena.free, ← hab.vacant]
      exact hab.set h .none _

theorem pinUpTo (hab : a.Like V b) (n : Nat) (h : Handle) :
    SameStep V (· = ·) (a.pinUpTo n h) (b.pinUpTo n h) := by
  induction n generalizing a b h with
  | zero => exact ⟨hab, .error⟩
  | succ n ih =>
    have hscope := hab.scope h
    rw [Arena.pinUpTo, Arena.pinUpTo]
    generalize a.scope h = x, b.scope h = y at hscope ⊢
    cases hscope with
    | error => exact ⟨hab, .error⟩
    | @ok s t hst =>
      obtain ⟨parent, l, pinned⟩ := s
      obtain ⟨parent', m, pinned'⟩ := t
      obtain ⟨rfl, hlm, rfl⟩ : parent = parent' ∧ _ ∧ pinned = pinned' :=
        ⟨hst.parent, hst.bindings, hst.pinned⟩
      dsimp only
      split
      · exact ⟨hab, .ok rfl⟩
      · have hset := hab.setSlot h (s := ⟨parent, l, true⟩) (t := ⟨parent, m, true⟩) ⟨rfl, hlm, rfl⟩
        cases parent with
        | none => exact ⟨hset, .ok rfl⟩
        | some p => exact ih hset p

theorem pin (hab : a.Like V b) (h : Handle) : SameStep V (· = ·) (a.pin h) (b.pin h) := by
  rw [Arena.pin, Arena.pin, hab.size]
  exact hab.pinUpTo _ h

/-! ### Bindings -/

variable [DecidableEq κ]

theorem define (hab : a.Like V b) (h : Handle) (k : κ) (hvw : V v w) :
    SameStep V (· = ·) (a.define h k v) (b.define h k w) := by
  have hscope := hab.scope h
  rw [Arena.define, Arena.define]
  generalize a.scope h = x, b.scope h = y at hscope ⊢
  cases hscope with
  | error => exact ⟨hab, .error⟩
  | ok hst =>
    refine ⟨hab.setSlot h ?_, .ok rfl⟩
    exact { hst with bindings := Scope.bindIn_related hst.bindings hvw }

theorem resolveUpTo (hab : a.Like V b) (k : κ) (n : Nat) (h : Handle) :
    a.resolveUpTo k n h = b.resolveUpTo k n h := by
  induction n generalizing h with
  | zero => rfl
  | succ n ih =>
    have hscope := hab.scope h
    rw [Arena.resolveUpTo, Arena.resolveUpTo]
    generalize a.scope h = x, b.scope h = y at hscope ⊢
    cases hscope with
    | error => rfl
    | ok hst =>
      dsimp only
      rw [Scope.binds_eq hst.bindings, hst.parent]
      split
      · rfl
      · split
        · rfl
        · exact ih _

theorem binder (hab : a.Like V b) (h : Handle) (k : κ) : a.binder h k = b.binder h k := by
  rw [Arena.binder, Arena.binder, Arena.resolve, Arena.resolve, hab.size, hab.resolveUpTo]

theorem assign (hab : a.Like V b) (h : Handle) (k : κ) (hvw : V v w) :
    SameStep V (· = ·) (a.assign h k v) (b.assign h k w) := by
  rw [Arena.assign, Arena.assign, hab.binder]
  split
  · exact ⟨hab, .error⟩
  · exact hab.define _ k hvw

theorem get (hab : a.Like V b) (h : Handle) (k : κ) : SameAnswer V (a.get h k) (b.get h k) := by
  rw [Arena.get, Arena.get, hab.binder]
  cases b.binder h k with
  | error r => exact .error
  | ok g =>
    simp only [Bind.bind, Except.bind]
    have hscope := hab.scope g
    generalize a.scope g = x, b.scope g = y at hscope ⊢
    cases hscope with
    | error => exact .error
    | @ok s t hst =>
      dsimp only
      have hfind := Scope.find_related (k := k) hst.bindings
      generalize s.find? k = x, t.find? k = y at hfind ⊢
      cases hfind with
      | none => exact .error
      | some hvw => exact .ok hvw

end Like

end Arena

end LoxLang
