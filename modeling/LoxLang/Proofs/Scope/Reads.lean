/-
Reading after writing.

Where finitely many live scopes are around a scope (`Arena.Outward`), the value of a name is the one
in the first of them that binds it (`Outward.get_eq`).  So what is bound in a scope is read from
another one exactly if the first is on the way outwards from the second, with no scope before it
that binds the name (`Arena.Sees`):

* `get_define_of_sees` and `Outward.get_define_of_not_sees` — a name is bound;
* `Outward.assign_cases` — a name is bound anew, which binds it in the scope that it resolves to;
* `Outward.reads_of_scopes` — the scopes stay, as where one is made and given up at once.

`reads_see_writes` puts them together.
-/
import LoxLang.Proofs.Scope.Allocation
import LoxLang.Proofs.Scope.Anchors
import LoxLang.Proofs.Scope.Written
import Mathlib.Data.List.Find

namespace LoxLang

namespace Arena

variable {κ α : Type} {a b : Arena κ α} {g h h' : Handle} {s : Scope κ α} {l : List Handle}

/-! ### The way outwards -/

/-- There is a scope with this handle. -/
def Live (a : Arena κ α) (h : Handle) : Prop := ∃ s, a.scope h = .ok s

/-- From every live scope outwards there are finitely many scopes, all of them live. -/
def Grounded (a : Arena κ α) : Prop := ∀ h, a.Live h → ∃ l, a.Outward h l

theorem Outward.chain (hl : a.Outward h l) : a.shape.Chain h l := by
  induction hl with
  | last scope parent => exact .last (shape_eq_some.mpr ⟨_, scope, parent, rfl⟩)
  | step scope parent _ ih => exact .step (shape_eq_some.mpr ⟨_, scope, parent, rfl⟩) ih

/-- No scope is around itself. -/
theorem Outward.nodup (hl : a.Outward h l) : l.Nodup := hl.chain.nodup

theorem Outward.unique {l' : List Handle} (hl : a.Outward h l) (hl' : a.Outward h l') : l = l' :=
  hl.chain.unique hl'.chain

/-- Scopes that are the same are around a scope as before. -/
theorem Outward.of_scopes (hl : a.Outward h l) (hscope : ∀ g ∈ l, b.scope g = a.scope g) :
    b.Outward h l :=
  hl.congr fun g hg s hs => ⟨s, (hscope g hg).trans hs, rfl⟩

/-! ### A scope that is given up at once -/

/-- The arena after a scope has been made and given up at once. -/
theorem release_push (ha : a.Tidy) (p : Option Handle) :
    (a.push p).1.release (a.push p).2 = ((a.push p).1.free (a.push p).2, .ok ()) := by
  have hs : (a.push p).1.scope (a.push p).2 = .ok ⟨p, [], false⟩ := by
    rw [scope_push ha, if_pos rfl]
  rw [release, hs]
  rfl

/-- The scopes that were there are as before. -/
theorem scope_free_push (ha : a.Tidy) (p : Option Handle) (hs : a.scope g = .ok s) :
    ((a.push p).1.free (a.push p).2).scope g = a.scope g := by
  have hne : g ≠ (a.push p).2 := by
    rintro rfl
    exact push_fresh ha p hs
  rw [scope_free hne, scope_push ha, if_neg hne]

variable [DecidableEq κ] {k m n : κ} {v : α}

/-! ### The value that is read -/

/-- The value that a scope binds a key to by itself. -/
def valueAt (a : Arena κ α) (k : κ) (h : Handle) : Option α :=
  match a.scope h with
  | .ok s => s.find? k
  | .error _ => none

theorem valueAt_of_scope (hs : a.scope h = .ok s) : a.valueAt k h = s.find? k := by
  rw [valueAt, hs]

theorem valueAt_congr (hscope : b.scope h = a.scope h) : b.valueAt k h = a.valueAt k h := by
  rw [valueAt, valueAt, hscope]

theorem isSome_find? (s : Scope κ α) (k : κ) : (s.find? k).isSome = s.binds k := by
  rw [Scope.find?, Scope.binds, Option.isSome_map, List.isSome_find?]

theorem isSome_valueAt (a : Arena κ α) (k : κ) (h : Handle) :
    (a.valueAt k h).isSome = a.bindsAt k h := by
  rw [valueAt, bindsAt]
  cases a.scope h with
  | ok s => exact isSome_find? s k
  | error r => rfl

theorem valueAt_eq_none_iff : a.valueAt k h = none ↔ a.bindsAt k h = false := by
  rw [← isSome_valueAt, Option.isSome_eq_false_iff, Option.isNone_iff_eq_none]

theorem find?_bindsAt_bind_valueAt (a : Arena κ α) (k : κ) (l : List Handle) :
    (l.find? (a.bindsAt k)).bind (a.valueAt k) = l.findSome? (a.valueAt k) := by
  induction l with
  | nil => rfl
  | cons h l ih =>
    rw [List.find?_cons, List.findSome?_cons, ← isSome_valueAt]
    cases hv : a.valueAt k h with
    | none => exact ih
    | some v => exact hv

/-- The value of a key is the one in the first scope outwards that binds it. -/
theorem Outward.get_eq (hl : a.Outward h l) :
    a.get h k = match l.findSome? (a.valueAt k) with
      | some v => .ok v
      | none => .error .unbound := by
  rw [Arena.get, hl.binder hl.nodup, ← find?_bindsAt_bind_valueAt]
  cases hg : l.find? (a.bindsAt k) with
  | none => rfl
  | some g =>
    obtain ⟨s, hs⟩ := hl.scope_of_mem (List.mem_of_find?_eq_some hg)
    show (a.scope g >>= fun s => match s.find? k with
        | some v => .ok v
        | none => .error .unbound) = match a.valueAt k g with
      | some v => .ok v
      | none => .error .unbound
    rw [hs, valueAt_of_scope hs]
    rfl

/-- What is read depends on nothing but the values along the way outwards. -/
theorem Outward.get_congr (hl : a.Outward h l) (hl' : b.Outward h l)
    (hvalue : ∀ g ∈ l, b.valueAt k g = a.valueAt k g) : b.get h k = a.get h k := by
  rw [hl.get_eq, hl'.get_eq, ← List.head?_filterMap, List.filterMap_congr hvalue,
    List.head?_filterMap]

/-- The value in the first scope that binds the key. -/
theorem Outward.get_of_split {near far : List Handle} (hl : a.Outward h (near ++ g :: far))
    (hnear : ∀ f ∈ near, a.valueAt k f = none) (hg : a.valueAt k g = some v) :
    a.get h k = .ok v := by
  rw [hl.get_eq, List.findSome?_append, List.findSome?_eq_none_iff.mpr hnear,
    List.findSome?_cons, hg]
  rfl

/-- What is read from scopes that are the same is the same. -/
theorem Outward.reads_of_scopes (hl : a.Outward h l) (hscope : ∀ g ∈ l, b.scope g = a.scope g)
    (k : κ) : b.get h k = a.get h k ∧ b.resolve h k = a.resolve h k := by
  have hl' := hl.of_scopes hscope
  refine ⟨hl.get_congr hl' fun g hg => valueAt_congr (hscope g hg), ?_⟩
  rw [hl.resolve hl.nodup, hl'.resolve hl'.nodup]
  refine congrArg _ (List.find?_congr fun g hg => ?_)
  rw [bindsAt, bindsAt, hscope g hg]

/-! ### Binding a name -/

/-- From a scope outwards there is another one, and no scope before it binds the key. -/
def Sees (a : Arena κ α) (k : κ) (h g : Handle) : Prop :=
  ∃ near far, a.Outward h (near ++ g :: far) ∧ ∀ f ∈ near, a.bindsAt k f = false

/-- A scope that binds the key is seen exactly where the key resolves to it. -/
theorem Outward.sees_iff (hl : a.Outward h l) (hg : a.bindsAt k g) :
    a.Sees k h g ↔ a.resolve h k = .ok (some g) := by
  rw [hl.resolve hl.nodup, Except.ok.injEq, List.find?_eq_some_iff_append]
  constructor
  · rintro ⟨near, far, hl', hnear⟩
    exact ⟨hg, near, far, hl.unique hl', fun f hf => by rw [hnear f hf]; rfl⟩
  · rintro ⟨-, near, far, rfl, hnear⟩
    exact ⟨near, far, hl, fun f hf => by simpa using hnear f hf⟩

theorem define_eq (hs : a.scope h = .ok s) (k : κ) (v : α) :
    a.define h k v = (a.setSlot h (some (s.bind k v)), .ok ()) := by
  rw [define, hs]

theorem valueAt_define (hs : a.scope h = .ok s) (n m : κ) (v : α) (g : Handle) :
    (a.define h n v).1.valueAt m g = if g = h ∧ n = m then some v else a.valueAt m g := by
  rw [define_eq hs]
  by_cases hg : g = h
  · subst hg
    rw [valueAt_of_scope (s := s.bind n v) (by rw [scope_setSlot hs, if_pos rfl]), Scope.find?_bind,
      valueAt_of_scope hs]
    simp
  · rw [if_neg fun hgh => hg hgh.1]
    exact valueAt_congr (by rw [scope_setSlot hs, if_neg hg])

theorem valueAt_define_of_ne (hs : a.scope h = .ok s) (hne : g ≠ h) (v : α) :
    (a.define h n v).1.valueAt m g = a.valueAt m g := by
  rw [valueAt_define hs, if_neg fun hgh => hne hgh.1]

theorem Outward.define (hl : a.Outward h' l) (h : Handle) (k : κ) (v : α) :
    (a.define h k v).1.Outward h' l :=
  hl.persists (by rw [shape_define]; exact .refl _)

/-- What is bound in a scope is read wherever that scope is seen. -/
theorem get_define_of_sees (hs : a.scope h = .ok s) (hsees : a.Sees n h' h) (v : α) :
    (a.define h n v).1.get h' n = .ok v := by
  obtain ⟨near, far, hl, hnear⟩ := hsees
  have hnot : h ∉ near := fun hmem =>
    (List.nodup_append.mp hl.nodup).2.2 h hmem h List.mem_cons_self rfl
  refine (hl.define h n v).get_of_split (fun f hf => ?_) ?_
  · rw [valueAt_define_of_ne hs fun hfh => hnot (hfh ▸ hf)]
    exact valueAt_eq_none_iff.mpr (hnear f hf)
  · rw [valueAt_define hs, if_pos ⟨rfl, rfl⟩]

/-- From everywhere else, and for every other name, what is read is what it was. -/
theorem Outward.get_define_of_not_sees (hl : a.Outward h' l) (hs : a.scope h = .ok s)
    (hnot : ¬(m = n ∧ a.Sees n h' h)) (v : α) : (a.define h n v).1.get h' m = a.get h' m := by
  by_cases hkept : ∀ g ∈ l, ¬(g = h ∧ n = m)
  · refine hl.get_congr (hl.define h n v) fun g hg => ?_
    rw [valueAt_define hs, if_neg (hkept g hg)]
  · obtain ⟨g, hmem, rfl, rfl⟩ : ∃ g ∈ l, g = h ∧ n = m := by simpa using hkept
    -- The scope is on the way outwards, so that a scope before it binds the name.
    obtain ⟨near, far, rfl, hg⟩ := List.eq_append_cons_of_mem hmem
    have hbound : ∃ v, near.findSome? (a.valueAt n) = some v := by
      refine Option.ne_none_iff_exists'.mp fun hnone => hnot ⟨rfl, near, far, hl, fun f hf => ?_⟩
      exact valueAt_eq_none_iff.mp (List.findSome?_eq_none_iff.mp hnone f hf)
    obtain ⟨w, hw⟩ := hbound
    obtain ⟨before, f, after, rfl, hf, hbefore⟩ := List.findSome?_eq_some_iff.mp hw
    rw [List.append_assoc, List.cons_append] at hl
    have hkeep {e : Handle} (he : e ∈ before ++ f :: after) :
        (a.define g n v).1.valueAt n e = a.valueAt n e :=
      valueAt_define_of_ne hs (fun heg => hg (heg ▸ he)) v
    rw [hl.get_of_split hbefore hf]
    refine (hl.define g n v).get_of_split (fun e he => ?_) ?_
    · rw [hkeep (List.mem_append_left _ he), hbefore e he]
    · rw [hkeep (by simp), hf]

/-! ### Binding a name anew -/

/-- Assigning binds a name in the scope that it resolves to, and fails where reading it does. -/
theorem Outward.assign_cases (hl : a.Outward h l) (k : κ) (v : α) :
    (∃ g s w, a.resolve h k = .ok (some g) ∧ a.scope g = .ok s ∧ a.bindsAt k g ∧
      a.get h k = .ok w ∧ a.assign h k v = a.define g k v) ∨
    (a.get h k = .error .unbound ∧ a.assign h k v = (a, .error .unbound)) := by
  have hbinder := hl.binder hl.nodup (k := k)
  have hresolve := hl.resolve hl.nodup (k := k)
  rw [hl.get_eq, Arena.assign, hbinder, ← find?_bindsAt_bind_valueAt]
  cases hg : l.find? (a.bindsAt k) with
  | none => exact .inr ⟨rfl, rfl⟩
  | some g =>
    have hbinds := List.find?_some hg
    obtain ⟨s, hs⟩ := hl.scope_of_mem (List.mem_of_find?_eq_some hg)
    obtain ⟨w, hw⟩ := Option.isSome_iff_exists.mp ((isSome_valueAt a k g).trans hbinds)
    refine .inl ⟨g, s, w, by rw [hresolve, hg], hs, hbinds, ?_, rfl⟩
    rw [Option.bind_some, hw]

/-! ### All together -/

/-- **What is read is what was written last where the name resolves to.**  After any history that
leaves finitely many live scopes around each live scope:

* what is bound in a scope is read from those that see it, and all else that is read is as before;
* what is bound anew is read where the name resolved to the same scope, and all else is as before;
* a name can be bound anew exactly where it can be read;
* a scope that is made and given up at once changes nothing that is read from another one. -/
theorem reads_see_writes (ops : List (Operation κ α)) (hgrounded : (after ops).Grounded) :
    let a := after ops
    (∀ h h' n m v, a.Live h → a.Live h' → (a.define h n v).2 = .ok () ∧
      (m = n ∧ a.Sees n h' h → (a.define h n v).1.get h' m = .ok v) ∧
      (¬(m = n ∧ a.Sees n h' h) → (a.define h n v).1.get h' m = a.get h' m)) ∧
    (∀ h h' n m v, a.Live h → a.Live h' → (a.assign h n v).2 = .ok () →
      (m = n ∧ a.resolve h' n = a.resolve h n → (a.assign h n v).1.get h' m = .ok v) ∧
      (¬(m = n ∧ a.resolve h' n = a.resolve h n) →
        (a.assign h n v).1.get h' m = a.get h' m)) ∧
    (∀ h n v r, a.Live h → ((a.assign h n v).2 = .error r ↔ a.get h n = .error r)) ∧
    (∀ p h' k, a.Live h' → ∃ c, (a.push p).1.release (a.push p).2 = (c, .ok ()) ∧
      c.get h' k = a.get h' k ∧ c.resolve h' k = a.resolve h' k) := by
  intro a
  have htidy : a.Tidy := (exact_after ops).tidy
  refine ⟨?_, ?_, ?_, ?_⟩
  · rintro h h' n m v ⟨s, hs⟩ hlive'
    obtain ⟨l, hl⟩ := hgrounded h' hlive'
    refine ⟨by rw [define_eq hs], ?_, fun hnot => hl.get_define_of_not_sees hs hnot v⟩
    rintro ⟨rfl, hsees⟩
    exact get_define_of_sees hs hsees v
  · intro h h' n m v hlive hlive' hdone
    obtain ⟨l, hl⟩ := hgrounded h hlive
    obtain ⟨l', hl'⟩ := hgrounded h' hlive'
    obtain ⟨g, s, w, hresolve, hs, hbinds, -, hassign⟩ | ⟨-, hassign⟩ := hl.assign_cases n v
    · rw [hassign, hresolve, ← hl'.sees_iff hbinds]
      refine ⟨?_, fun hnot => hl'.get_define_of_not_sees hs hnot v⟩
      rintro ⟨rfl, hsees⟩
      exact get_define_of_sees hs hsees v
    · rw [hassign] at hdone
      cases hdone
  · intro h n v r hlive
    obtain ⟨l, hl⟩ := hgrounded h hlive
    obtain ⟨g, s, w, -, hs, -, hget, hassign⟩ | ⟨hget, hassign⟩ := hl.assign_cases n v
    · rw [hassign, hget, define_eq hs]
      exact iff_of_false (by rintro ⟨⟩) (by rintro ⟨⟩)
    · rw [hassign, hget]
      simp only [Except.error.injEq]
  · intro p h' k hlive'
    obtain ⟨l, hl⟩ := hgrounded h' hlive'
    refine ⟨_, release_push htidy p, hl.reads_of_scopes (fun g hg => ?_) k⟩
    obtain ⟨s, hs⟩ := hl.scope_of_mem hg
    exact scope_free_push htidy p hs

/-- Two scopes inside another one, of which the second binds the name by itself. -/
theorem reads_see_writes_of_siblings :
    let ops : List (Operation String Nat) :=
      [.push (some 0), .push (some 0), .push (some 1), .define 0 "x" 1, .define 2 "x" 2]
    let a := after ops
    a.Grounded ∧ a.Live 3 ∧ a.Live 2 ∧ a.Sees "x" 3 1 ∧
      (a.define 1 "x" 5).1.get 3 "x" = .ok 5 ∧ (a.define 1 "x" 5).1.get 2 "x" = a.get 2 "x" ∧
      a.resolve 0 "x" = a.resolve 3 "x" ∧ (a.assign 3 "x" 7).2 = .ok () ∧
      (a.assign 3 "x" 7).1.get 0 "x" = .ok 7 ∧ (a.assign 3 "x" 7).1.get 2 "x" = a.get 2 "x" ∧
      ∃ c, (a.push (some 2)).1.release (a.push (some 2)).2 = (c, .ok ()) ∧
        c.get 2 "x" = a.get 2 "x" := by
  intro ops a
  have hlast : a.Outward 0 [0] := .last rfl rfl
  have hfirst : a.Outward 1 [1, 0] := .step rfl rfl hlast
  have hsecond : a.Outward 2 [2, 0] := .step rfl rfl hlast
  have hthird : a.Outward 3 [3, 1, 0] := .step rfl rfl hfirst
  have hsize : a.slots.size = 4 := rfl
  have hgrounded : a.Grounded
    | 0, _ => ⟨_, hlast⟩
    | 1, _ => ⟨_, hfirst⟩
    | 2, _ => ⟨_, hsecond⟩
    | 3, _ => ⟨_, hthird⟩
    | h + 4, ⟨s, hs⟩ => absurd (lt_size_of_scope hs) (by simp [hsize])
  have hlive : a.Live 1 ∧ a.Live 2 ∧ a.Live 3 := ⟨⟨_, rfl⟩, ⟨_, rfl⟩, ⟨_, rfl⟩⟩
  have hsees : a.Sees "x" 3 1 := ⟨[3], [0], hthird, by decide⟩
  have hnot : ¬a.Sees "x" 2 1 := by
    rintro ⟨near, far, hl, -⟩
    have hmem : 1 ∈ [2, 0] := by
      rw [hsecond.unique hl]
      simp
    simp at hmem
  have hdone : (a.assign 3 "x" 7).2 = .ok () := rfl
  have hresolve : a.resolve 0 "x" = a.resolve 3 "x" ∧ a.resolve 2 "x" ≠ a.resolve 3 "x" := by
    decide
  obtain ⟨hdefine, hassign, -, hpush⟩ := reads_see_writes ops hgrounded
  obtain ⟨-, hread, -⟩ := hdefine 1 3 "x" "x" 5 hlive.1 hlive.2.2
  obtain ⟨-, -, hkept⟩ := hdefine 1 2 "x" "x" 5 hlive.1 hlive.2.1
  obtain ⟨hread', -⟩ := hassign 3 0 "x" "x" 7 hlive.2.2 ⟨_, rfl⟩ hdone
  obtain ⟨-, hkept'⟩ := hassign 3 2 "x" "x" 7 hlive.2.2 hlive.2.1 hdone
  obtain ⟨c, hc, hget, -⟩ := hpush (some 2) 2 "x" hlive.2.1
  exact ⟨hgrounded, hlive.2.2, hlive.2.1, hsees, hread ⟨rfl, hsees⟩, hkept fun h => hnot h.2,
    hresolve.1, hdone, hread' ⟨rfl, hresolve.1⟩, hkept' fun h => hresolve.2 h.2, c, hc, hget⟩

end Arena

end LoxLang
