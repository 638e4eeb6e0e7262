/-
Two arenas, of which one has some scopes more that bind nothing.

A `Matching` tells of scopes in the first arena that each has a twin in the second one, or is
hollow: nothing is bound there.  Twins bind the same names to alike values.  Around twins there are
twins again, once the hollow scopes in between are passed over (`Matching.Meets`).  So a name that
is looked up from a scope, hollow or not, is found in a scope and in the twin of that
(`Arena.Matched.binder`), and no operation tells the arenas apart:

* `Matched.diagonal` — an arena and itself;
* `Matched.push`, `Matched.pushHollow` — scopes that are made;
* `Matched.get`, `Matched.define`, `Matched.assign` — bindings;
* `Matched.congr` — pinning, which leaves bindings and the scopes around scopes as they are;
* `Matched.within` — scopes that are given up.
-/
import LoxLang.Proofs.Scope.Renaming
import LoxLang.Proofs.Scope.Written

namespace LoxLang

/-- Scopes with twins in another arena, and hollow scopes, each with the scope around it. -/
structure Matching where
  twins : List Twin
  hollow : List (Handle × Handle)

namespace Matching

variable {φ ψ χ : Matching} {g h p : Handle} {P Q : Handle → Prop}

/-- From a scope outwards, the first one that is not hollow has this twin. -/
inductive Meets (φ : Matching) : Handle → Handle → Prop where
  | twin {g h : Handle} (twin : (g, h) ∈ φ.twins) : Meets φ g h
  | outwards {g p h : Handle} (hollow : (g, p) ∈ φ.hollow) (rest : Meets φ p h) : Meets φ g h

/-- More scopes have twins, and more are hollow. -/
structure Le (φ ψ : Matching) : Prop where
  twins : φ.twins ⊆ ψ.twins
  hollow : φ.hollow ⊆ ψ.hollow

theorem Le.refl (φ : Matching) : φ.Le φ := ⟨List.Subset.refl _, List.Subset.refl _⟩

theorem Le.trans (hφψ : φ.Le ψ) (hψχ : ψ.Le χ) : φ.Le χ :=
  ⟨List.Subset.trans hφψ.twins hψχ.twins, List.Subset.trans hφψ.hollow hψχ.hollow⟩

theorem Meets.mono (hφψ : φ.Le ψ) (h : φ.Meets g p) : ψ.Meets g p := by
  induction h with
  | twin twin => exact .twin (hφψ.twins twin)
  | outwards hollow _ ih => exact .outwards (hφψ.hollow hollow) ih

open scoped Classical in
/-- Of the scopes in the first arena only some are left, and so it is in the second one. -/
noncomputable def within (φ : Matching) (P Q : Handle → Prop) : Matching where
  twins := φ.twins.filter fun x => P x.1 ∧ Q x.2
  hollow := φ.hollow.filter fun x => P x.1

theorem mem_twins_within {x : Twin} :
    x ∈ (φ.within P Q).twins ↔ x ∈ φ.twins ∧ P x.1 ∧ Q x.2 := by
  simp [within]

theorem mem_hollow_within {x : Handle × Handle} :
    x ∈ (φ.within P Q).hollow ↔ x ∈ φ.hollow ∧ P x.1 := by
  simp [within]

/-- Where the scopes around those that are left are left as well, the same scopes are met. -/
theorem Meets.within (hP : ∀ x ∈ φ.hollow, P x.1 → P x.2) (h : φ.Meets g p) (hg : P g)
    (hp : Q p) : (φ.within P Q).Meets g p := by
  induction h with
  | twin twin => exact .twin (mem_twins_within.mpr ⟨twin, hg, hp⟩)
  | outwards hollow _ ih =>
    exact .outwards (mem_hollow_within.mpr ⟨hollow, hg⟩) (ih (hP _ hollow hg) hp)

open scoped Classical in
/-- Every scope of some is its own twin. -/
noncomputable def diagonal (P : Handle → Prop) (n : Nat) : Matching where
  twins := ((List.range n).filter fun h => P h).map fun h => (h, h)
  hollow := []

theorem mem_twins_diagonal {P : Handle → Prop} {n : Nat} {x : Twin} :
    x ∈ (diagonal P n).twins ↔ x.2 = x.1 ∧ x.1 < n ∧ P x.1 := by
  simp only [diagonal, List.mem_map, List.mem_filter, List.mem_range, decide_eq_true_eq]
  constructor
  · rintro ⟨h, hh, rfl⟩
    exact ⟨rfl, hh⟩
  · rintro ⟨heq, hh⟩
    exact ⟨x.1, hh, Prod.ext rfl heq.symm⟩

end Matching

/-- Lists that are related element by element are so by anything that follows for their elements. -/
theorem forall₂_imp_mem {α β : Type} {R S : α → β → Prop} {l : List α} {k : List β}
    (h : List.Forall₂ R l k) (hRS : ∀ a ∈ l, ∀ b ∈ k, R a b → S a b) : List.Forall₂ S l k := by
  induction h with
  | nil => exact .nil
  | cons hab _ ih =>
    refine .cons (hRS _ List.mem_cons_self _ List.mem_cons_self hab) (ih fun a ha b hb => ?_)
    exact hRS a (List.mem_cons_of_mem _ ha) b (List.mem_cons_of_mem _ hb)

/-! ### Two scopes -/

variable {κ α : Type} {V W : α → α → Prop} {φ ψ : Matching}

/-- Two scopes bind the same names to alike values, and twins are around them. -/
structure Scope.Matched (V : α → α → Prop) (φ : Matching) (s t : Scope κ α) : Prop where
  bindings : List.Forall₂ (SameBinding V) s.bindings t.bindings
  parent : Option.Rel φ.Meets s.parent t.parent

theorem Scope.Matched.mono {s t : Scope κ α} (h : s.Matched V φ t) (hVW : ∀ v w, V v w → W v w)
    (hφψ : φ.Le ψ) : s.Matched W ψ t where
  bindings := h.bindings.imp fun _ _ hb => ⟨hb.1, hVW _ _ hb.2⟩
  parent := by
    have hrel := h.parent
    generalize s.parent = p, t.parent = q at hrel
    cases hrel with
    | none => exact .none
    | some hpq => exact .some (hpq.mono hφψ)

namespace Arena

/-! ### Two arenas -/

/-- Scopes that match bind the same, and hollow ones bind nothing. -/
structure Matched (V : α → α → Prop) (φ : Matching) (a b : Arena κ α) : Prop where
  oneToOne : OneToOne φ.twins
  apart : ∀ x ∈ φ.twins, ∀ y ∈ φ.hollow, x.1 ≠ y.1
  twins : ∀ x ∈ φ.twins, ∃ s t, a.scope x.1 = .ok s ∧ b.scope x.2 = .ok t ∧ s.Matched V φ t
  hollow : ∀ y ∈ φ.hollow, ∃ s, a.scope y.1 = .ok s ∧ s.bindings = [] ∧ s.parent = some y.2

namespace Matched

variable {a b a' b' : Arena κ α} {g h : Handle} {x y : Twin}

theorem mono (hab : Matched V φ a b) (hVW : ∀ v w, V v w → W v w) : Matched W φ a b where
  oneToOne := hab.oneToOne
  apart := hab.apart
  twins x hx := by
    obtain ⟨s, t, hs, ht, hst⟩ := hab.twins x hx
    exact ⟨s, t, hs, ht, hst.mono hVW (.refl φ)⟩
  hollow := hab.hollow

/-- What leaves the bindings and the scopes around scopes as they are makes no difference. -/
theorem congr (hab : Matched V φ a b) (ha : a.Keeps a') (hb : b.Keeps b') :
    Matched V φ a' b' where
  oneToOne := hab.oneToOne
  apart := hab.apart
  twins x hx := by
    obtain ⟨s, t, hs, ht, hst⟩ := hab.twins x hx
    obtain ⟨s', hs', hparent, hbindings⟩ := ha x.1 s hs
    obtain ⟨t', ht', hparent', hbindings'⟩ := hb x.2 t ht
    refine ⟨s', t', hs', ht', ?_, ?_⟩
    · rw [hbindings, hbindings']
      exact hst.bindings
    · rw [hparent, hparent']
      exact hst.parent
  hollow y hy := by
    obtain ⟨s, hs, hempty, hparent⟩ := hab.hollow y hy
    obtain ⟨s', hs', hparent', hbindings⟩ := ha y.1 s hs
    exact ⟨s', hs', hbindings.trans hempty, hparent'.trans hparent⟩

/-- Changing twins alike. -/
theorem setSlot {s t s' t' : Scope κ α} (hab : Matched V φ a b) (hx : x ∈ φ.twins)
    (hs : a.scope x.1 = .ok s) (ht : b.scope x.2 = .ok t) (hst : s'.Matched V φ t') :
    Matched V φ (a.setSlot x.1 (some s')) (b.setSlot x.2 (some t')) where
  oneToOne := hab.oneToOne
  apart := hab.apart
  twins y hy := by
    rw [scope_setSlot hs, scope_setSlot ht]
    by_cases hyx : y.1 = x.1
    · rw [if_pos hyx, if_pos ((hab.oneToOne y hy x hx).mp hyx)]
      exact ⟨s', t', rfl, rfl, hst⟩
    · rw [if_neg hyx, if_neg (mt (hab.oneToOne y hy x hx).mpr hyx)]
      exact hab.twins y hy
  hollow y hy := by
    rw [scope_setSlot hs, if_neg (hab.apart x hx y hy).symm]
    exact hab.hollow y hy

/-! ### Scopes that are made and given up -/

/-- Two new scopes inside scopes that match. -/
theorem push (hab : Matched V φ a b) (ha : a.Tidy) (hb : b.Tidy) (hgh : φ.Meets g h) :
    Matched V ⟨((a.push (some g)).2, (b.push (some h)).2) :: φ.twins, φ.hollow⟩
      (a.push (some g)).1 (b.push (some h)).1 := by
  set z : Twin := ((a.push (some g)).2, (b.push (some h)).2)
  have hgrown : φ.Le ⟨z :: φ.twins, φ.hollow⟩ :=
    ⟨List.subset_cons_self _ _, List.Subset.refl _⟩
  -- The handles of the new scopes are new on both sides.
  have hne : ∀ x ∈ φ.twins, x.1 ≠ z.1 ∧ x.2 ≠ z.2 := by
    intro x hx
    obtain ⟨s, t, hs, ht, -⟩ := hab.twins x hx
    exact ⟨fun heq => push_fresh ha _ (heq ▸ hs), fun heq => push_fresh hb _ (heq ▸ ht)⟩
  have hne' : ∀ y ∈ φ.hollow, y.1 ≠ z.1 := by
    intro y hy
    obtain ⟨s, hs, -⟩ := hab.hollow y hy
    exact fun heq => push_fresh ha _ (heq ▸ hs)
  refine ⟨?_, ?_, ?_, ?_⟩
  · intro x hx x' hx'
    rcases List.mem_cons.mp hx with rfl | hx
    · rcases List.mem_cons.mp hx' with rfl | hx'
      · simp
      · simp [(hne x' hx').1.symm, (hne x' hx').2.symm]
    · rcases List.mem_cons.mp hx' with rfl | hx'
      · simp [(hne x hx).1, (hne x hx).2]
      · exact hab.oneToOne x hx x' hx'
  · intro x hx y hy
    rcases List.mem_cons.mp hx with rfl | hx
    · exact (hne' y hy).symm
    · exact hab.apart x hx y hy
  · intro x hx
    rw [scope_push ha, scope_push hb]
    rcases List.mem_cons.mp hx with rfl | hx
    · exact ⟨_, _, if_pos rfl, if_pos rfl, .nil, .some (hgh.mono hgrown)⟩
    · rw [if_neg (hne x hx).1, if_neg (hne x hx).2]
      obtain ⟨s, t, hs, ht, hst⟩ := hab.twins x hx
      exact ⟨s, t, hs, ht, hst.mono (fun _ _ => id) hgrown⟩
  · intro y hy
    rw [scope_push ha, if_neg (hne' y hy)]
    exact hab.hollow y hy

/-- A new scope on the first side only.  Nothing is bound there yet. -/
theorem pushHollow (hab : Matched V φ a b) (ha : a.Tidy) (g : Handle) :
    Matched V ⟨φ.twins, ((a.push (some g)).2, g) :: φ.hollow⟩ (a.push (some g)).1 b := by
  set z : Handle := (a.push (some g)).2
  have hgrown : φ.Le ⟨φ.twins, (z, g) :: φ.hollow⟩ :=
    ⟨List.Subset.refl _, List.subset_cons_self _ _⟩
  have hne : ∀ x ∈ φ.twins, x.1 ≠ z := by
    intro x hx
    obtain ⟨s, t, hs, -⟩ := hab.twins x hx
    exact fun heq => push_fresh ha _ (heq ▸ hs)
  have hne' : ∀ y ∈ φ.hollow, y.1 ≠ z := by
    intro y hy
    obtain ⟨s, hs, -⟩ := hab.hollow y hy
    exact fun heq => push_fresh ha _ (heq ▸ hs)
  refine ⟨hab.oneToOne, ?_, ?_, ?_⟩
  · intro x hx y hy
    rcases List.mem_cons.mp hy with rfl | hy
    · exact hne x hx
    · exact hab.apart x hx y hy
  · intro x hx
    rw [scope_push ha, if_neg (hne x hx)]
    obtain ⟨s, t, hs, ht, hst⟩ := hab.twins x hx
    exact ⟨s, t, hs, ht, hst.mono (fun _ _ => id) hgrown⟩
  · intro y hy
    rw [scope_push ha]
    rcases List.mem_cons.mp hy with rfl | hy
    · exact ⟨_, if_pos rfl, rfl, rfl⟩
    · rw [if_neg (hne' y hy)]
      exact hab.hollow y hy

/-- Where the scopes around those that are left are left as well, so are the ones around hollow
scopes. -/
theorem hollow_closed {P : Handle → Prop} (hab : Matched V φ a b)
    (hP : ∀ g, P g → ∃ s, a.scope g = .ok s ∧ ∀ p ∈ s.parent, P p) :
    ∀ y ∈ φ.hollow, P y.1 → P y.2 := by
  intro y hy hp
  obtain ⟨s, hs, -, hparent⟩ := hab.hollow y hy
  obtain ⟨s', hs', hclosed⟩ := hP y.1 hp
  obtain rfl := scope_unique hs hs'
  exact hclosed y.2 hparent

/-- Some scopes are left on both sides, with all the scopes around them.  Values that are left in
these have to be alike still. -/
theorem within {P Q : Handle → Prop} (hab : Matched V φ a b)
    (ha : ∀ g s, a'.scope g = .ok s → a.scope g = .ok s)
    (hb : ∀ g s, b'.scope g = .ok s → b.scope g = .ok s)
    (hP : ∀ g, P g → ∃ s, a'.scope g = .ok s ∧ ∀ p ∈ s.parent, P p)
    (hQ : ∀ h, Q h → ∃ t, b'.scope h = .ok t ∧ ∀ p ∈ t.parent, Q p)
    (hVW : ∀ v ∈ a'.values, ∀ w ∈ b'.values, V v w → W v w) :
    Matched W (φ.within P Q) a' b' := by
  have hhollow := hab.hollow_closed fun g hg => by
    obtain ⟨s, hs, hparent⟩ := hP g hg
    exact ⟨s, ha g s hs, hparent⟩
  refine ⟨?_, ?_, ?_, ?_⟩
  · intro x hx y hy
    exact hab.oneToOne x (Matching.mem_twins_within.mp hx).1 y (Matching.mem_twins_within.mp hy).1
  · intro x hx y hy
    exact hab.apart x (Matching.mem_twins_within.mp hx).1 y (Matching.mem_hollow_within.mp hy).1
  · intro x hx
    obtain ⟨hx, hp, hq⟩ := Matching.mem_twins_within.mp hx
    obtain ⟨s, t, hs, ht, hst⟩ := hab.twins x hx
    obtain ⟨s', hleft, hparent⟩ := hP x.1 hp
    obtain ⟨t', hright, hparent'⟩ := hQ x.2 hq
    obtain rfl := scope_unique hs (ha _ _ hleft)
    obtain rfl := scope_unique ht (hb _ _ hright)
    refine ⟨s, t, hleft, hright, ?_, ?_⟩
    · refine forall₂_imp_mem hst.bindings fun e he f hf hef => ⟨hef.1, hVW _ ?_ _ ?_ hef.2⟩
      · exact mem_values_iff.mpr ⟨x.1, s, scope_eq_ok.mp hleft, List.mem_map_of_mem he⟩
      · exact mem_values_iff.mpr ⟨x.2, t, scope_eq_ok.mp hright, List.mem_map_of_mem hf⟩
    · have hrel := hst.parent
      generalize s.parent = p, t.parent = q at hrel hparent hparent'
      cases hrel with
      | none => exact .none
      | some hpq => exact .some (hpq.within hhollow (hparent _ rfl) (hparent' _ rfl))
  · intro y hy
    obtain ⟨hy, hp⟩ := Matching.mem_hollow_within.mp hy
    obtain ⟨s, hs, hempty, hparent⟩ := hab.hollow y hy
    obtain ⟨s', hleft, -⟩ := hP y.1 hp
    obtain rfl := scope_unique hs (ha _ _ hleft)
    exact ⟨s, hleft, hempty, hparent⟩

/-- An arena matches itself. -/
theorem diagonal {P : Handle → Prop}
    (hP : ∀ g, P g → ∃ s, a.scope g = .ok s ∧ ∀ p ∈ s.parent, P p) (hV : ∀ v ∈ a.values, V v v) :
    Matched V (.diagonal P a.slots.size) a a := by
  have hmem {g : Handle} (hg : P g) : (g, g) ∈ (Matching.diagonal P a.slots.size).twins := by
    obtain ⟨s, hs, -⟩ := hP g hg
    exact Matching.mem_twins_diagonal.mpr ⟨rfl, lt_size_of_scope hs, hg⟩
  refine ⟨fun x hx y hy => ?_, fun _ _ y hy => absurd hy List.not_mem_nil, fun x hx => ?_,
    fun y hy => absurd hy List.not_mem_nil⟩
  · rw [(Matching.mem_twins_diagonal.mp hx).1, (Matching.mem_twins_diagonal.mp hy).1]
  · obtain ⟨heq, -, hp⟩ := Matching.mem_twins_diagonal.mp hx
    obtain ⟨s, hs, hparent⟩ := hP x.1 hp
    refine ⟨s, s, hs, heq ▸ hs, ?_, ?_⟩
    · refine List.forall₂_same.mpr fun e he => ⟨rfl, hV _ ?_⟩
      exact mem_values_iff.mpr ⟨x.1, s, scope_eq_ok.mp hs, List.mem_map_of_mem he⟩
    · generalize s.parent = p at hparent
      cases p with
      | none => exact .none
      | some p => exact .some (.twin (hmem (hparent p rfl)))

/-! ### Bindings -/

variable [DecidableEq κ] {k : κ} {l l' : List Handle} {v w : α}

theorem bindsAt_eq (hab : Matched V φ a b) (hx : x ∈ φ.twins) :
    a.bindsAt k x.1 = b.bindsAt k x.2 := by
  obtain ⟨s, t, hs, ht, hst⟩ := hab.twins x hx
  rw [bindsAt_of_scope hs, bindsAt_of_scope ht, Scope.binds_eq hst.bindings]

theorem bindsAt_hollow (hab : Matched V φ a b) {y : Handle × Handle} (hy : y ∈ φ.hollow) :
    a.bindsAt k y.1 = false := by
  obtain ⟨s, hs, hempty, -⟩ := hab.hollow y hy
  rw [bindsAt_of_scope hs, Scope.binds, hempty, List.any_nil]

/-- On the ways outwards from scopes that match, a name is found in twins, or nowhere. -/
theorem find (hab : Matched V φ a b) (hgh : φ.Meets g h) (hl : a.Outward g l)
    (hl' : b.Outward h l') :
    Option.Rel (fun i j => (i, j) ∈ φ.twins) (l.find? (a.bindsAt k)) (l'.find? (b.bindsAt k)) := by
  induction hl generalizing h l' with
  | @last g s scope parent =>
    cases hgh with
    | outwards hollow _ =>
      obtain ⟨s', hs', -, hparent⟩ := hab.hollow _ hollow
      rw [scope_unique scope hs', hparent] at parent
      cases parent
    | twin twin =>
      obtain ⟨s', t, hs', ht, hst⟩ := hab.twins _ twin
      obtain rfl := scope_unique scope hs'
      have hbinds := hab.bindsAt_eq (k := k) twin
      have hrel := hst.parent
      rw [parent] at hrel
      cases hl' with
      | step scope' parent' _ =>
        rw [scope_unique ht scope', parent'] at hrel
        cases hrel
      | last _ _ =>
        rw [List.find?_singleton, List.find?_singleton, hbinds]
        split
        · exact .some twin
        · exact .none
  | @step g p s l scope parent rest ih =>
    cases hgh with
    | @outwards _ p' _ hollow outer =>
      obtain ⟨s', hs', -, hparent⟩ := hab.hollow _ hollow
      obtain rfl : p = p' := by
        rw [← scope_unique scope hs', parent] at hparent
        injection hparent
      -- Nothing is found in a hollow scope.
      rw [List.find?_cons, hab.bindsAt_hollow hollow]
      exact ih outer hl'
    | twin twin =>
      obtain ⟨s', t, hs', ht, hst⟩ := hab.twins _ twin
      obtain rfl := scope_unique scope hs'
      have hbinds := hab.bindsAt_eq (k := k) twin
      have hrel := hst.parent
      rw [parent] at hrel
      cases hl' with
      | last scope' parent' =>
        rw [scope_unique ht scope', parent'] at hrel
        cases hrel
      | step scope' parent' rest' =>
        rw [scope_unique ht scope', parent'] at hrel
        cases hrel with
        | some houter =>
          rw [List.find?_cons, List.find?_cons, hbinds]
          cases b.bindsAt k h with
          | true => exact .some twin
          | false => exact ih houter rest'

/-- A name is bound by twins around scopes that match, or by no scope. -/
theorem binder (hab : Matched V φ a b) (hgh : φ.Meets g h) (hl : a.Outward g l) (hnodup : l.Nodup)
    (hl' : b.Outward h l') (hnodup' : l'.Nodup) (k : κ) :
    (a.binder g k = .error .unbound ∧ b.binder h k = .error .unbound) ∨
      ∃ x ∈ φ.twins, a.binder g k = .ok x.1 ∧ b.binder h k = .ok x.2 := by
  have hfind := hab.find (k := k) hgh hl hl'
  rw [hl.binder hnodup, hl'.binder hnodup']
  generalize l.find? (a.bindsAt k) = i, l'.find? (b.bindsAt k) = j at hfind
  cases hfind with
  | none => exact .inl ⟨rfl, rfl⟩
  | @some i j hij => exact .inr ⟨(i, j), hij, rfl, rfl⟩

theorem get (hab : Matched V φ a b) (hgh : φ.Meets g h) (hl : a.Outward g l) (hnodup : l.Nodup)
    (hl' : b.Outward h l') (hnodup' : l'.Nodup) (k : κ) :
    (a.get g k = .error .unbound ∧ b.get h k = .error .unbound) ∨
      ∃ v w, a.get g k = .ok v ∧ b.get h k = .ok w ∧ V v w := by
  rw [Arena.get, Arena.get]
  obtain ⟨ha, hb⟩ | ⟨x, hx, ha, hb⟩ := hab.binder hgh hl hnodup hl' hnodup' k
  · rw [ha, hb]
    exact .inl ⟨rfl, rfl⟩
  · obtain ⟨s, t, hs, ht, hst⟩ := hab.twins x hx
    have hfind := Scope.find_related (k := k) hst.bindings
    rw [ha, hb]
    simp only [bind, Except.bind, hs, ht]
    generalize s.find? k = v, t.find? k = w at hfind
    cases hfind with
    | none => exact .inl ⟨rfl, rfl⟩
    | some hvw => exact .inr ⟨_, _, rfl, rfl, hvw⟩

theorem define (hab : Matched V φ a b) (hx : x ∈ φ.twins) (k : κ) (hvw : V v w) :
    ∃ a' b', a.define x.1 k v = (a', .ok ()) ∧ b.define x.2 k w = (b', .ok ()) ∧
      Matched V φ a' b' := by
  obtain ⟨s, t, hs, ht, hst⟩ := hab.twins x hx
  have hbind : (s.bind k v).Matched V φ (t.bind k w) :=
    ⟨Scope.bindIn_related hst.bindings hvw, hst.parent⟩
  exact ⟨_, _, by rw [Arena.define, hs], by rw [Arena.define, ht], hab.setSlot hx hs ht hbind⟩

theorem assign (hab : Matched V φ a b) (hgh : φ.Meets g h) (hl : a.Outward g l) (hnodup : l.Nodup)
    (hl' : b.Outward h l') (hnodup' : l'.Nodup) (k : κ) (hvw : V v w) :
    (a.assign g k v = (a, .error .unbound) ∧ b.assign h k w = (b, .error .unbound)) ∨
      ∃ a' b', a.assign g k v = (a', .ok ()) ∧ b.assign h k w = (b', .ok ()) ∧
        Matched V φ a' b' := by
  rw [Arena.assign, Arena.assign]
  obtain ⟨ha, hb⟩ | ⟨x, hx, ha, hb⟩ := hab.binder hgh hl hnodup hl' hnodup' k
  · rw [ha, hb]
    exact .inl ⟨rfl, rfl⟩
  · rw [ha, hb]
    exact .inr (hab.define hx k hvw)

end Matched

end Arena

end LoxLang
