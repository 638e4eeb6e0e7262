/-
Two arenas with the same scopes behind different handles.

The first arena gives up the slots of scopes that are left and hands them out again; in the
second one no slot is ever vacant, so that each new scope gets a new slot.  `Arena.Renamed`
says that the scopes that matter are alike in both: the ones that were entered and not left,
and the ones that are pinned.  Every operation keeps this up and gives alike answers:

* `Renamed.push`, `Renamed.release` — entering and leaving a scope;
* `Renamed.define`, `Renamed.assign`, `Renamed.get` — bindings;
* `Renamed.pin` — after which more scopes are kept for good.

Handles in the second arena grow inwards, since a scope is made after the one around it.  So
the walks outwards come to an end, in both arenas.
-/
import LoxLang.Proofs.Scope.Walk
import Mathlib.Data.List.Find
import Mathlib.Data.List.Forall2
import Mathlib.Data.List.Nodup

namespace LoxLang

/-- The handles of one scope in two arenas. -/
abbrev Twin := Handle × Handle

/-- Each handle on one side belongs to a single one on the other side. -/
def OneToOne (twins : List Twin) : Prop :=
  ∀ x ∈ twins, ∀ y ∈ twins, x.1 = y.1 ↔ x.2 = y.2

variable {κ α : Type} {V : α → α → Prop} {stack kept : List Twin}

/-! ### Two scopes -/

/-- Two bindings of one key to alike values. -/
def SameBinding (V : α → α → Prop) (e f : κ × α) : Prop := e.1 = f.1 ∧ V e.2 f.2

/-- Two scopes are alike.  `x` are their handles; the scopes entered are those of `stack`, the
innermost first, and `kept` are the ones that are pinned. -/
structure Scope.Renamed (V : α → α → Prop) (stack kept : List Twin) (x : Twin)
    (s t : Scope κ α) : Prop where
  bindings : List.Forall₂ (SameBinding V) s.bindings t.bindings
  pinned : s.pinned = true ↔ x ∈ kept
  pinned' : t.pinned = true ↔ x ∈ kept
  parent : Option.Rel (fun p q => q < x.2 ∧ (p, q) ∈ stack ++ kept ∧ (x ∈ kept → (p, q) ∈ kept))
    s.parent t.parent

namespace Scope

variable {x : Twin} {s t : Scope κ α}

theorem Renamed.mono {W : α → α → Prop} (hVW : ∀ v w, V v w → W v w)
    (h : Renamed V stack kept x s t) : Renamed W stack kept x s t where
  bindings := h.bindings.imp fun _ _ hb => ⟨hb.1, hVW _ _ hb.2⟩
  pinned := h.pinned
  pinned' := h.pinned'
  parent := h.parent

/-- Two scopes are still alike when others are entered or left, as long as the scopes around
them are there. -/
theorem Renamed.restack {stack' : List Twin} (h : Renamed V stack kept x s t)
    (hparent : ∀ y : Twin, y.2 < x.2 → y ∈ stack ++ kept → (x ∈ kept → y ∈ kept) →
      y ∈ stack' ++ kept) : Renamed V stack' kept x s t where
  bindings := h.bindings
  pinned := h.pinned
  pinned' := h.pinned'
  parent := by
    have hrel := h.parent
    generalize s.parent = p, t.parent = q at hrel
    cases hrel with
    | none => exact .none
    | some hpq => exact .some ⟨hpq.1, hparent (_, _) hpq.1 hpq.2.1 hpq.2.2, hpq.2.2⟩

/-- The scope around two alike ones, if there is one. -/
theorem Renamed.parent_cases (h : Renamed V stack kept x s t) :
    (s.parent = none ∧ t.parent = none) ∨ ∃ y : Twin, s.parent = some y.1 ∧
      t.parent = some y.2 ∧ y.2 < x.2 ∧ y ∈ stack ++ kept ∧ (x ∈ kept → y ∈ kept) := by
  have hparent := h.parent
  generalize s.parent = p, t.parent = q at hparent
  cases hparent with
  | none => exact .inl ⟨rfl, rfl⟩
  | @some p q hpq => exact .inr ⟨(p, q), rfl, rfl, hpq⟩

variable [DecidableEq κ] {k : κ}

theorem binds_eq (h : List.Forall₂ (SameBinding V) s.bindings t.bindings) :
    s.binds k = t.binds k := by
  unfold binds
  generalize s.bindings = l, t.bindings = m at h
  induction h with
  | nil => rfl
  | cons hb _ ih => rw [List.any_cons, List.any_cons, ih, hb.1]

theorem find_related (h : List.Forall₂ (SameBinding V) s.bindings t.bindings) :
    Option.Rel V (s.find? k) (t.find? k) := by
  unfold find?
  generalize s.bindings = l, t.bindings = m at h
  induction h with
  | nil => exact .none
  | @cons e f _ _ hb _ ih =>
    by_cases hk : e.1 = k
    · have hk' : f.1 = k := hb.1 ▸ hk
      simp only [List.find?_cons, hk, hk', decide_true, Option.map_some]
      exact .some hb.2
    · have hk' : f.1 ≠ k := hb.1 ▸ hk
      simpa only [List.find?_cons, hk, hk', decide_false] using ih

theorem bindIn_related {l m : List (κ × α)} (h : List.Forall₂ (SameBinding V) l m) {v w : α}
    (hvw : V v w) : List.Forall₂ (SameBinding V) (bindIn k v l) (bindIn k w m) := by
  induction h with
  | nil => exact .cons ⟨rfl, hvw⟩ .nil
  | @cons e f l m hb hrest ih =>
    obtain ⟨k₁, v₁⟩ := e
    obtain ⟨k₂, v₂⟩ := f
    obtain ⟨hkey, hval⟩ := hb
    obtain rfl : k₁ = k₂ := hkey
    by_cases hk : k₁ = k
    · simp only [bindIn, hk, if_true]
      exact .cons ⟨rfl, hvw⟩ hrest
    · simp only [bindIn, hk, if_false]
      exact .cons ⟨rfl, hval⟩ ih

end Scope

namespace Arena

variable {a b : Arena κ α} {x y : Twin}

/-! ### Two arenas -/

/-- Two arenas are alike: the scopes that were entered and the ones that are kept. -/
structure Renamed (V : α → α → Prop) (stack kept : List Twin) (a b : Arena κ α) : Prop where
  tidy : a.Tidy
  vacant : b.vacant = []
  oneToOne : OneToOne (stack ++ kept)
  inwards : stack.Pairwise fun x y => y.2 < x.2
  scopes : ∀ x ∈ stack ++ kept, ∃ s t, a.scope x.1 = .ok s ∧ b.scope x.2 = .ok t ∧
    s.Renamed V stack kept x t

namespace Renamed

theorem initial : Renamed (κ := κ) V [] [(globals, globals)] initial initial where
  tidy := .of_vacant_nil rfl
  vacant := rfl
  oneToOne x hx y hy := by
    obtain rfl := List.mem_singleton.mp hx
    obtain rfl := List.mem_singleton.mp hy
    simp
  inwards := .nil
  scopes x hx := by
    obtain rfl := List.mem_singleton.mp hx
    exact ⟨⟨none, [], true⟩, ⟨none, [], true⟩, rfl, rfl, .nil, by simp, by simp, .none⟩

theorem mono {W : α → α → Prop} (hVW : ∀ v w, V v w → W v w) (h : Renamed V stack kept a b) :
    Renamed W stack kept a b where
  tidy := h.tidy
  vacant := h.vacant
  oneToOne := h.oneToOne
  inwards := h.inwards
  scopes x hx := by
    obtain ⟨s, t, hs, ht, hst⟩ := h.scopes x hx
    exact ⟨s, t, hs, ht, hst.mono hVW⟩

theorem eq_of_fst (h : Renamed V stack kept a b) (hx : x ∈ stack ++ kept)
    (hy : y ∈ stack ++ kept) (hxy : x.1 = y.1) : x = y :=
  Prod.ext hxy ((h.oneToOne x hx y hy).mp hxy)

/-- Changing alike scopes alike. -/
theorem setSlot {s t s' t' : Scope κ α} (h : Renamed V stack kept a b)
    (hy : y ∈ stack ++ kept) (hs : a.scope y.1 = .ok s) (ht : b.scope y.2 = .ok t)
    (hst : s'.Renamed V stack kept y t') :
    Renamed V stack kept (a.setSlot y.1 (some s')) (b.setSlot y.2 (some t')) where
  tidy := h.tidy.setSlot hs s'
  vacant := h.vacant
  oneToOne := h.oneToOne
  inwards := h.inwards
  scopes x hx := by
    rw [scope_setSlot hs, scope_setSlot ht]
    by_cases hxy : x = y
    · subst hxy
      exact ⟨s', t', by simp, by simp, hst⟩
    · have hne : x.1 ≠ y.1 := fun he => hxy (h.eq_of_fst hx hy he)
      have hne' : x.2 ≠ y.2 := fun he => hne ((h.oneToOne x hx y hy).mpr he)
      rw [if_neg hne, if_neg hne']
      exact h.scopes x hx

/-! ### Entering and leaving a scope -/

theorem push (h : Renamed V stack kept a b) (hy : y ∈ stack ++ kept) :
    Renamed V (((a.push (some y.1)).2, (b.push (some y.2)).2) :: stack) kept
      (a.push (some y.1)).1 (b.push (some y.2)).1 := by
  obtain ⟨hvacant, hsize⟩ := push_of_vacant_nil h.vacant (some y.2)
  set z : Twin := ((a.push (some y.1)).2, (b.push (some y.2)).2) with hz
  -- The handles of the new scope are new on both sides.
  have hne : ∀ x ∈ stack ++ kept, x.1 ≠ z.1 := by
    intro x hx he
    obtain ⟨s, t, hs, -, -⟩ := h.scopes x hx
    rw [he] at hs
    exact push_fresh h.tidy (some y.1) hs
  have hlt : ∀ x ∈ stack ++ kept, x.2 < z.2 := by
    intro x hx
    obtain ⟨s, t, -, ht, -⟩ := h.scopes x hx
    rw [hz, hsize]
    exact lt_size_of_scope ht
  -- It is on top of the stack and not kept, since nothing refers to it yet.
  have hnot : z ∉ kept := fun hmem => hne z (List.mem_append_right _ hmem) rfl
  have htidy : b.Tidy := .of_vacant_nil h.vacant
  refine ⟨h.tidy.push _, hvacant, ?_, ?_, ?_⟩
  · intro x hx x' hx'
    rcases List.mem_cons.mp hx with rfl | hx
    · rcases List.mem_cons.mp hx' with rfl | hx'
      · simp
      · simp [(hne x' hx').symm, (hlt x' hx').ne']
    · rcases List.mem_cons.mp hx' with rfl | hx'
      · simp [hne x hx, (hlt x hx).ne]
      · exact h.oneToOne x hx x' hx'
  · exact .cons (fun x hx => hlt x (List.mem_append_left _ hx)) h.inwards
  · intro x hx
    rw [scope_push h.tidy, scope_push htidy]
    rcases List.mem_cons.mp hx with rfl | hx
    · refine ⟨_, _, if_pos rfl, if_pos rfl, .nil, by simp [hnot], by simp [hnot], ?_⟩
      exact .some ⟨hlt y hy, List.mem_cons_of_mem _ hy, fun hmem => absurd hmem hnot⟩
    · rw [if_neg (hne x hx), if_neg (hlt x hx).ne]
      obtain ⟨s, t, hs, ht, hst⟩ := h.scopes x hx
      exact ⟨s, t, hs, ht, hst.restack fun w _ hw _ => List.mem_cons_of_mem _ hw⟩

/-- The scope that is left is none of those that are still entered. -/
theorem lt_of_mem_tail {z : Twin} (h : Renamed V (z :: stack) kept a b) (hx : x ∈ stack) :
    x.2 < z.2 := by
  exact (List.pairwise_cons.mp h.inwards).1 x hx

/-- A scope is not around another one when it is left. -/
theorem scopes_tail {z : Twin} (h : Renamed V (z :: stack) kept a b) (hx : x ∈ stack ++ kept) :
    ∃ s t, a.scope x.1 = .ok s ∧ b.scope x.2 = .ok t ∧ s.Renamed V stack kept x t := by
  obtain ⟨s, t, hs, ht, hst⟩ := h.scopes x (List.mem_cons_of_mem z hx)
  refine ⟨s, t, hs, ht, hst.restack fun y hlt hy hkept => ?_⟩
  rcases List.mem_append.mp hx with hx | hx
  · have hzx := h.lt_of_mem_tail hx
    rcases List.mem_cons.mp hy with rfl | hy
    -- Handles get smaller outwards, and this one was made after `x`.
    · exact absurd hlt (not_lt.mpr hzx.le)
    · exact hy
  · exact List.mem_append_right _ (hkept hx)

theorem oneToOne_tail {z : Twin} (h : Renamed V (z :: stack) kept a b) :
    OneToOne (stack ++ kept) := by
  intro x hx y hy
  exact h.oneToOne x (List.mem_cons_of_mem z hx) y (List.mem_cons_of_mem z hy)

/-- The scope entered last need not matter any more. -/
theorem forget {z : Twin} (h : Renamed V (z :: stack) kept a b) : Renamed V stack kept a b where
  tidy := h.tidy
  vacant := h.vacant
  oneToOne := h.oneToOne_tail
  inwards := (List.pairwise_cons.mp h.inwards).2
  scopes _ hx := h.scopes_tail hx

/-- Leaving the scope entered last. -/
theorem release {z : Twin} (h : Renamed V (z :: stack) kept a b) :
    ∃ a', a.release z.1 = (a', .ok ()) ∧ Renamed V stack kept a' b := by
  obtain ⟨s, t, hs, -, hst⟩ := h.scopes z (by simp)
  rw [Arena.release, hs]
  by_cases hz : z ∈ kept
  · exact ⟨a, by simp [hst.pinned.mpr hz], h.forget⟩
  · have hpinned : ¬s.pinned = true := fun hp => hz (hst.pinned.mp hp)
    -- It is not kept, so it is freed in the first arena only.
    refine ⟨a.free z.1, by simp [hpinned], h.tidy.free hs, h.vacant, h.oneToOne_tail,
      (List.pairwise_cons.mp h.inwards).2, ?_⟩
    intro x hx
    -- A scope that still matters has not been in the slot that is freed.
    have hne : x.1 ≠ z.1 := by
      intro he
      obtain rfl := h.eq_of_fst (List.mem_cons_of_mem z hx) (List.mem_cons_self ..) he
      rcases List.mem_append.mp hx with hx | hx
      · exact lt_irrefl _ (h.lt_of_mem_tail hx)
      · exact hz hx
    rw [scope_free hne]
    exact h.scopes_tail hx

/-! ### The walks outwards -/

/-- The scopes around a scope are alike in both arenas, and there are no more of them than
there are slots. -/
theorem outward (h : Renamed V stack kept a b) (hx : x ∈ stack ++ kept) :
    ∃ l : List Twin, Outward a x.1 (l.map Prod.fst) ∧ Outward b x.2 (l.map Prod.snd) ∧
      x ∈ l ∧ l ⊆ stack ++ kept ∧ (∀ y ∈ l, y.2 ≤ x.2) ∧ (l.map Prod.snd).Nodup := by
  -- The handles in the second arena get smaller outwards.
  induction hn : x.2 using Nat.strong_induction_on generalizing x with
  | _ n ih =>
    subst hn
    obtain ⟨s, t, hs, ht, hst⟩ := h.scopes x hx
    obtain ⟨hsp, htp⟩ | ⟨y, hsp, htp, hlt, hy, -⟩ := hst.parent_cases
    · exact ⟨[x], .last hs hsp, .last ht htp, by simp, by simpa using hx, by simp, by simp⟩
    · obtain ⟨l, ha, hb, -, hsub, hle, hnodup⟩ := ih y.2 hlt hy rfl
      refine ⟨x :: l, .step hs hsp ha, .step ht htp hb, by simp, ?_, ?_, ?_⟩
      · exact List.cons_subset.mpr ⟨hx, hsub⟩
      · intro z hz
        rcases List.mem_cons.mp hz with rfl | hz
        · exact le_rfl
        · exact (hle z hz).trans hlt.le
      · rw [List.map_cons, List.nodup_cons]
        refine ⟨fun hmem => ?_, hnodup⟩
        obtain ⟨z, hz, hzx⟩ := List.mem_map.mp hmem
        have hzy := hle z hz
        rw [hzx] at hzy
        exact absurd hlt (not_lt.mpr hzy)

theorem nodup_fst (h : Renamed V stack kept a b) {l : List Twin} (hsub : l ⊆ stack ++ kept)
    (hnodup : (l.map Prod.snd).Nodup) : (l.map Prod.fst).Nodup := by
  refine List.Nodup.map_on ?_ hnodup.of_map
  intro x hx y hy hxy
  exact h.eq_of_fst (hsub hx) (hsub hy) hxy

/-! ### Pinning -/

/-- Kept scopes are pinned, and so are the ones around them. -/
theorem pinnedOutwards (h : Renamed V stack kept a b) {l : List Twin}
    (hsub : l ⊆ stack ++ kept) :
    a.PinnedOutwards (l.map Prod.fst) ∧ b.PinnedOutwards (l.map Prod.snd) := by
  constructor
  · intro g hg s hs hpinned p hp t ht
    obtain ⟨x, hx, rfl⟩ := List.mem_map.mp hg
    obtain ⟨s₁, t₁, hs₁, -, hst⟩ := h.scopes x (hsub hx)
    obtain rfl : s₁ = s := scope_unique hs₁ hs
    obtain ⟨hnone, -⟩ | ⟨y, hy₁, -, -, hy, hkept⟩ := hst.parent_cases
    · rw [hp] at hnone
      cases hnone
    · obtain rfl : p = y.1 := by
        rw [hp] at hy₁
        injection hy₁
      obtain ⟨s₂, t₂, hs₂, -, hst₂⟩ := h.scopes y hy
      rw [scope_unique ht hs₂]
      exact hst₂.pinned.mpr (hkept (hst.pinned.mp hpinned))
  · intro g hg s hs hpinned p hp t ht
    obtain ⟨x, hx, rfl⟩ := List.mem_map.mp hg
    obtain ⟨s₁, t₁, -, ht₁, hst⟩ := h.scopes x (hsub hx)
    obtain rfl : t₁ = s := scope_unique ht₁ hs
    obtain ⟨-, hnone⟩ | ⟨y, -, hy₁, -, hy, hkept⟩ := hst.parent_cases
    · rw [hp] at hnone
      cases hnone
    · obtain rfl : p = y.2 := by
        rw [hp] at hy₁
        injection hy₁
      obtain ⟨s₂, t₂, -, ht₂, hst₂⟩ := h.scopes y hy
      rw [scope_unique ht ht₂]
      exact hst₂.pinned'.mpr (hkept (hst.pinned'.mp hpinned))

/-- Alike scopes after some have been pinned, with the scopes around each of those. -/
theorem of_pinned {a' b' : Arena κ α} {l : List Twin} (h : Renamed V stack kept a b)
    (hsub : l ⊆ stack ++ kept) (ha : Pinned (l.map Prod.fst) a a')
    (hb : Pinned (l.map Prod.snd) b b')
    (hclosed : ∀ y ∈ l, ∀ z ∈ stack ++ kept, ∀ s, a.scope y.1 = .ok s → s.parent = some z.1 →
      z ∈ l) : Renamed V stack (l ++ kept) a' b' := by
  -- No scope comes in that did not matter before.
  have hall : ∀ x ∈ stack ++ (l ++ kept), x ∈ stack ++ kept := by
    intro x hx
    rcases List.mem_append.mp hx with hx | hx
    · exact List.mem_append_left _ hx
    · rcases List.mem_append.mp hx with hx | hx
      · exact hsub hx
      · exact List.mem_append_right _ hx
  refine ⟨ha.tidy h.tidy ?_, hb.vacant.trans h.vacant, ?_, h.inwards, ?_⟩
  · intro g hg
    obtain ⟨x, hx, rfl⟩ := List.mem_map.mp hg
    obtain ⟨s, t, hs, -, -⟩ := h.scopes x (hsub hx)
    exact ⟨s, hs⟩
  · intro x hx y hy
    exact h.oneToOne x (hall x hx) y (hall y hy)
  · intro x hx
    obtain ⟨s, t, hs, ht, hst⟩ := h.scopes x (hall x hx)
    have hparent : Option.Rel (fun p q => q < x.2 ∧ (p, q) ∈ stack ++ (l ++ kept) ∧
        (x ∈ l ++ kept → (p, q) ∈ l ++ kept)) s.parent t.parent := by
      obtain ⟨hsp, htp⟩ | ⟨y, hsp, htp, hlt, hy, hkept⟩ := hst.parent_cases
      · rw [hsp, htp]
        exact .none
      · rw [hsp, htp]
        refine .some ⟨hlt, ?_, fun hxl => ?_⟩
        · rcases List.mem_append.mp hy with hy | hy
          · exact List.mem_append_left _ hy
          · exact List.mem_append_right _ (List.mem_append_right _ hy)
        · rcases List.mem_append.mp hxl with hxl | hxl
          -- The scope around a newly kept one is kept too, as the list goes all the way out.
          · exact List.mem_append_left _ (hclosed x hxl y hy s hs hsp)
          · exact List.mem_append_right _ (hkept hxl)
    by_cases hxl : x ∈ l
    · refine ⟨_, _, ha.inside x.1 (List.mem_map_of_mem hxl) s hs,
        hb.inside x.2 (List.mem_map_of_mem hxl) t ht, hst.bindings, ?_, ?_, hparent⟩
      · simp [hxl]
      · simp [hxl]
    · have hout : x.1 ∉ l.map Prod.fst := by
        intro hmem
        obtain ⟨y, hy, hyx⟩ := List.mem_map.mp hmem
        obtain rfl := h.eq_of_fst (hsub hy) (hall x hx) hyx
        exact hxl hy
      have hout' : x.2 ∉ l.map Prod.snd := by
        intro hmem
        obtain ⟨y, hy, hyx⟩ := List.mem_map.mp hmem
        have hfst := (h.oneToOne y (hsub hy) x (hall x hx)).mpr hyx
        obtain rfl := h.eq_of_fst (hsub hy) (hall x hx) hfst
        exact hxl hy
      rw [scope_congr (ha.outside x.1 hout), scope_congr (hb.outside x.2 hout')]
      refine ⟨s, t, hs, ht, hst.bindings, ?_, ?_, hparent⟩
      · simpa [hxl] using hst.pinned
      · simpa [hxl] using hst.pinned'

/-- Pinning a scope: it is kept from now on, with all scopes around it. -/
theorem pin (h : Renamed V stack kept a b) (hx : x ∈ stack ++ kept) :
    ∃ l a' b', x ∈ l ∧ a.pin x.1 = (a', .ok ()) ∧ b.pin x.2 = (b', .ok ()) ∧
      Renamed V stack (l ++ kept) a' b' := by
  obtain ⟨l, ha, hb, hxl, hsub, -, hnodup⟩ := h.outward hx
  obtain ⟨hclosed, hclosed'⟩ := h.pinnedOutwards hsub
  obtain ⟨a', ha', hpa⟩ := ha.pin (h.nodup_fst hsub hnodup) hclosed
  obtain ⟨b', hb', hpb⟩ := hb.pin hnodup hclosed'
  refine ⟨l, a', b', hxl, ha', hb', h.of_pinned hsub hpa hpb ?_⟩
  intro y hy z hz s hs hp
  obtain ⟨z', hz', hzz⟩ := List.mem_map.mp (ha.parent_mem (List.mem_map_of_mem hy) hs hp)
  obtain rfl := h.eq_of_fst (hsub hz') hz hzz
  exact hz'

variable [DecidableEq κ] {k : κ}

theorem bindsAt_eq (h : Renamed V stack kept a b) (hx : x ∈ stack ++ kept) :
    a.bindsAt k x.1 = b.bindsAt k x.2 := by
  obtain ⟨s, t, hs, ht, hst⟩ := h.scopes x hx
  rw [bindsAt_of_scope hs, bindsAt_of_scope ht, Scope.binds_eq hst.bindings]

/-- A key is bound by the same scope around alike ones, or by none. -/
theorem binder (h : Renamed V stack kept a b) (hx : x ∈ stack ++ kept) (k : κ) :
    (a.binder x.1 k = .error .unbound ∧ b.binder x.2 k = .error .unbound) ∨
      ∃ y ∈ stack ++ kept, a.binder x.1 k = .ok y.1 ∧ b.binder x.2 k = .ok y.2 := by
  obtain ⟨l, ha, hb, -, hsub, -, hnodup⟩ := h.outward hx
  rw [ha.binder (h.nodup_fst hsub hnodup), hb.binder hnodup, List.find?_map, List.find?_map]
  -- Both searches go through the same pairs, and agree on each of them.
  have hcongr : l.find? (a.bindsAt k ∘ Prod.fst) = l.find? (b.bindsAt k ∘ Prod.snd) :=
    List.find?_congr fun y hy => h.bindsAt_eq (hsub hy)
  rw [hcongr]
  cases hfind : l.find? (b.bindsAt k ∘ Prod.snd) with
  | none => exact .inl ⟨rfl, rfl⟩
  | some y => exact .inr ⟨y, hsub (List.mem_of_find?_eq_some hfind), rfl, rfl⟩

/-! ### Bindings -/

theorem get (h : Renamed V stack kept a b) (hx : x ∈ stack ++ kept) (k : κ) :
    (a.get x.1 k = .error .unbound ∧ b.get x.2 k = .error .unbound) ∨
      ∃ v w, a.get x.1 k = .ok v ∧ b.get x.2 k = .ok w ∧ V v w := by
  rw [Arena.get, Arena.get]
  obtain ⟨ha, hb⟩ | ⟨y, hy, ha, hb⟩ := h.binder hx k
  · rw [ha, hb]
    exact .inl ⟨rfl, rfl⟩
  · obtain ⟨s, t, hs, ht, hst⟩ := h.scopes y hy
    have hfind := Scope.find_related (k := k) hst.bindings
    rw [ha, hb]
    simp only [bind, Except.bind, hs, ht]
    generalize s.find? k = v, t.find? k = w at hfind
    cases hfind with
    | none => exact .inl ⟨rfl, rfl⟩
    | some hvw => exact .inr ⟨_, _, rfl, rfl, hvw⟩

theorem define (h : Renamed V stack kept a b) (hy : y ∈ stack ++ kept) (k : κ) {v w : α}
    (hvw : V v w) : ∃ a' b', a.define y.1 k v = (a', .ok ()) ∧
      b.define y.2 k w = (b', .ok ()) ∧ Renamed V stack kept a' b' := by
  obtain ⟨s, t, hs, ht, hst⟩ := h.scopes y hy
  have hbind : (s.bind k v).Renamed V stack kept y (t.bind k w) :=
    ⟨Scope.bindIn_related hst.bindings hvw, hst.pinned, hst.pinned', hst.parent⟩
  exact ⟨_, _, by rw [Arena.define, hs], by rw [Arena.define, ht], h.setSlot hy hs ht hbind⟩

theorem assign (h : Renamed V stack kept a b) (hx : x ∈ stack ++ kept) (k : κ) {v w : α}
    (hvw : V v w) :
    (a.assign x.1 k v = (a, .error .unbound) ∧ b.assign x.2 k w = (b, .error .unbound)) ∨
      ∃ a' b', a.assign x.1 k v = (a', .ok ()) ∧ b.assign x.2 k w = (b', .ok ()) ∧
        Renamed V stack kept a' b' := by
  rw [Arena.assign, Arena.assign]
  obtain ⟨ha, hb⟩ | ⟨y, hy, ha, hb⟩ := h.binder hx k
  · rw [ha, hb]
    exact .inl ⟨rfl, rfl⟩
  · rw [ha, hb]
    exact .inr (h.define hy k hvw)

end Renamed

end Arena

end LoxLang
