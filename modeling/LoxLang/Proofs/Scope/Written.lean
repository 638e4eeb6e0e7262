/-
What is written in the scopes of an arena.

`Arena.Written` compares an arena with a later one, as far as the scopes of the former go.  Each of
them is still there, inside the same scope.  It has the names that it had, in the same order, and
after these the ones that were introduced in it.  And the value of a name is the one that it had,
or one that was introduced or assigned.

There is a rule for each operation on scopes (`Arena.Written.push`, `Arena.Written.assign`, ...),
and one for everything that is done to a scope that was not there before (`Arena.Written.apart`).
-/
import LoxLang.Proofs.Scope.Shape

namespace LoxLang

variable {κ α : Type}

namespace Scope

/-- The names that a scope binds. -/
def names (s : Scope κ α) : List κ := s.bindings.map (·.1)

section

variable [DecidableEq κ] {s : Scope κ α} {k k' : κ} {v : α}

theorem mem_names_iff : k ∈ s.names ↔ s.binds k := by
  simp [names, binds]

theorem names_bindIn (k : κ) (v : α) (l : List (κ × α)) :
    (bindIn k v l).map (·.1) = if k ∈ l.map (·.1) then l.map (·.1) else l.map (·.1) ++ [k] := by
  induction l with
  | nil => rfl
  | cons e rest ih =>
    rw [bindIn]
    split
    · rename_i heq
      rw [if_pos (by simp [heq])]
      rfl
    · rename_i hne
      rw [List.map_cons, ih, List.map_cons]
      simp only [List.mem_cons, Ne.symm hne, false_or]
      split
      · rfl
      · rfl

/-- A name that is bound anew keeps its place. -/
theorem names_bind_of_binds (h : s.binds k) : (s.bind k v).names = s.names :=
  (names_bindIn k v s.bindings).trans (if_pos (mem_names_iff.mpr h))

/-- Another name comes last. -/
theorem names_bind (s : Scope κ α) (k : κ) (v : α) :
    ∃ new, (s.bind k v).names = s.names ++ new ∧ ∀ k' ∈ new, k' = k := by
  by_cases h : s.binds k
  · exact ⟨[], by rw [names_bind_of_binds h, List.append_nil], fun k' hk' => by cases hk'⟩
  · refine ⟨[k], ?_, fun k' hk' => List.mem_singleton.mp hk'⟩
    exact (names_bindIn k v s.bindings).trans (if_neg (mt mem_names_iff.mp h))

theorem find?_bindIn (k : κ) (v : α) (l : List (κ × α)) :
    ((bindIn k v l).find? (·.1 = k')).map (·.2)
      = if k = k' then some v else (l.find? (·.1 = k')).map (·.2) := by
  induction l with
  | nil =>
    by_cases hk : k = k'
    · simp [bindIn, hk]
    · simp [bindIn, hk]
  | cons e rest ih =>
    rw [bindIn]
    by_cases he : e.1 = k
    · rw [if_pos he]
      by_cases hk : k = k'
      · simp [he, hk]
      · simp [he, hk]
    · rw [if_neg he]
      by_cases hk : e.1 = k'
      · simp [hk, show k ≠ k' from fun h => he (hk.trans h.symm)]
      · simpa [hk] using ih

theorem find?_bind (s : Scope κ α) (k : κ) (v : α) :
    (s.bind k v).find? k' = if k = k' then some v else s.find? k' :=
  find?_bindIn k v s.bindings

end

/-- A scope and the same one later: something may have been introduced in it and assigned. -/
structure Written [DecidableEq κ] (introduced assigned : κ → α → Prop) (s t : Scope κ α) :
    Prop where
  parent : t.parent = s.parent
  names : ∃ new, t.names = s.names ++ new ∧ ∀ k ∈ new, ∃ v, introduced k v
  values : ∀ k, t.find? k = s.find? k ∨ ∃ v, t.find? k = some v ∧ (introduced k v ∨ assigned k v)

namespace Written

variable [DecidableEq κ] {I I' A A' : κ → α → Prop} {s t u : Scope κ α} {k : κ} {v : α}

theorem of_bindings (hparent : t.parent = s.parent) (hbindings : t.bindings = s.bindings) :
    Written I A s t where
  parent := hparent
  names := ⟨[], by rw [Scope.names, hbindings, List.append_nil]; rfl, fun k hk => by cases hk⟩
  values k := .inl (by rw [find?, find?, hbindings])

theorem mono (hI : ∀ k v, I k v → I' k v) (hA : ∀ k v, A k v → A' k v) (h : Written I A s t) :
    Written I' A' s t where
  parent := h.parent
  names := by
    obtain ⟨new, hnames, hnew⟩ := h.names
    exact ⟨new, hnames, fun k hk => (hnew k hk).imp fun v => hI k v⟩
  values k := (h.values k).imp_right fun ⟨v, hv, hwritten⟩ =>
    ⟨v, hv, hwritten.imp (hI k v) (hA k v)⟩

theorem trans (hst : Written I A s t) (htu : Written I A t u) : Written I A s u where
  parent := htu.parent.trans hst.parent
  names := by
    obtain ⟨new, hnames, hnew⟩ := hst.names
    obtain ⟨new', hnames', hnew'⟩ := htu.names
    refine ⟨new ++ new', by rw [hnames', hnames, List.append_assoc], fun k hk => ?_⟩
    exact (List.mem_append.mp hk).elim (hnew k) (hnew' k)
  values k := by
    rcases htu.values k with heq | hwritten
    · rw [heq]
      exact hst.values k
    · exact .inr hwritten

theorem bind_of_introduced (h : I k v) : Written I A s (s.bind k v) where
  parent := rfl
  names := by
    obtain ⟨new, hnames, hnew⟩ := s.names_bind k v
    refine ⟨new, hnames, fun k' hk' => ⟨v, ?_⟩⟩
    rwa [hnew k' hk']
  values k' := by
    rw [find?_bind]
    split
    · rename_i heq
      exact .inr ⟨v, rfl, .inl (heq ▸ h)⟩
    · exact .inl rfl

theorem bind_of_assigned (hbinds : s.binds k) (h : A k v) : Written I A s (s.bind k v) where
  parent := rfl
  names := ⟨[], by rw [names_bind_of_binds hbinds, List.append_nil], fun k hk => by cases hk⟩
  values k' := by
    rw [find?_bind]
    split
    · rename_i heq
      exact .inr ⟨v, rfl, .inr (heq ▸ h)⟩
    · exact .inl rfl

end Written

end Scope

namespace Arena

variable [DecidableEq κ]

/-- A name resolves to a scope that binds it. -/
theorem binds_of_resolveUpTo {a : Arena κ α} {k : κ} {n : Nat} {g h : Handle}
    (hg : a.resolveUpTo k n h = .ok (some g)) : ∃ s, a.scope g = .ok s ∧ s.binds k := by
  induction n generalizing h with
  | zero => cases hg
  | succ n ih =>
    rw [Arena.resolveUpTo] at hg
    split at hg
    · cases hg
    · rename_i s hs
      split at hg
      · rename_i hbinds
        cases hg
        exact ⟨s, hs, hbinds⟩
      · split at hg
        · cases hg
        · exact ih hg

/-- Every scope has the same bindings as before, inside the same scope. -/
def Keeps (a b : Arena κ α) : Prop :=
  ∀ g s, a.scope g = .ok s →
    ∃ t, b.scope g = .ok t ∧ t.parent = s.parent ∧ t.bindings = s.bindings

namespace Keeps

variable {a b c : Arena κ α}

omit [DecidableEq κ]

theorem refl (a : Arena κ α) : a.Keeps a := fun _ s hs => ⟨s, hs, rfl, rfl⟩

theorem trans (hab : a.Keeps b) (hbc : b.Keeps c) : a.Keeps c := by
  intro g s hs
  obtain ⟨t, ht, hparent, hbindings⟩ := hab g s hs
  obtain ⟨u, hu, hparent', hbindings'⟩ := hbc g t ht
  exact ⟨u, hu, hparent'.trans hparent, hbindings'.trans hbindings⟩

theorem pinUpTo (a : Arena κ α) (n : Nat) (h : Handle) : a.Keeps (a.pinUpTo n h).1 := by
  induction n generalizing a h with
  | zero => exact refl a
  | succ n ih =>
    rw [Arena.pinUpTo]
    split
    · exact refl a
    · rename_i s hs
      split
      · exact refl a
      · have hset : a.Keeps (a.setSlot h (some { s with pinned := true })) := by
          intro g t ht
          rw [scope_setSlot hs]
          split
          · rename_i heq
            obtain rfl : s = t := scope_unique hs (heq ▸ ht)
            exact ⟨_, rfl, rfl, rfl⟩
          · exact ⟨t, ht, rfl, rfl⟩
        dsimp only
        split
        · exact hset
        · exact hset.trans (ih _ _)

theorem pin (a : Arena κ α) (h : Handle) : a.Keeps (a.pin h).1 := pinUpTo a _ h

end Keeps

/-- What has become of the scopes that there were. -/
def Written (introduced assigned : Handle → κ → α → Prop) (a b : Arena κ α) : Prop :=
  ∀ h s, a.scope h = .ok s → ∃ t, b.scope h = .ok t ∧ s.Written (introduced h) (assigned h) t

namespace Written

variable {I I' A A' : Handle → κ → α → Prop} {a b c : Arena κ α} {h : Handle} {k : κ} {v : α}

theorem of_bindings (hab : a.Keeps b) : Written I A a b := by
  intro g s hs
  obtain ⟨t, ht, hparent, hbindings⟩ := hab g s hs
  exact ⟨t, ht, .of_bindings hparent hbindings⟩

theorem refl (a : Arena κ α) : Written I A a a := of_bindings (.refl a)

/-- What is written later counts as far as the scopes go that there were first. -/
theorem trans_of (hab : Written I A a b) (hbc : Written I' A' b c)
    (hI : ∀ h s, a.scope h = .ok s → ∀ k v, I' h k v → I h k v)
    (hA : ∀ h k v, A' h k v → A h k v) : Written I A a c := by
  intro g s hs
  obtain ⟨t, ht, hst⟩ := hab g s hs
  obtain ⟨u, hu, htu⟩ := hbc g t ht
  exact ⟨u, hu, hst.trans (htu.mono (hI g s hs) (hA g))⟩

theorem trans (hab : Written I A a b) (hbc : Written I A b c) : Written I A a c :=
  hab.trans_of hbc (fun _ _ _ _ _ => id) fun _ _ _ => id

/-- What is done to a scope that was not there does not count. -/
theorem apart (hab : Written I A a b) (hfresh : ∀ s, a.scope h ≠ .ok s)
    (hbc : ∀ g, g ≠ h → c.scope g = b.scope g) : Written I A a c := by
  intro g s hs
  have hne : g ≠ h := by
    rintro rfl
    exact hfresh s hs
  rw [hbc g hne]
  exact hab g s hs

theorem push (ha : a.Tidy) (p : Option Handle) : Written I A a (a.push p).1 :=
  (refl a).apart (fun _ => push_fresh ha p) fun g hne => by rw [scope_push ha, if_neg hne]

theorem pin (a : Arena κ α) (h : Handle) : Written I A a (a.pin h).1 := of_bindings (.pin a h)

/-- Another content of a scope. -/
theorem setSlot {s t : Scope κ α} (hs : a.scope h = .ok s) (hst : s.Written (I h) (A h) t) :
    Written I A a (a.setSlot h (some t)) := by
  intro g u hu
  rw [scope_setSlot hs]
  split
  · rename_i heq
    subst heq
    obtain rfl : s = u := scope_unique hs hu
    exact ⟨t, rfl, hst⟩
  · exact ⟨u, hu, .of_bindings rfl rfl⟩

theorem define (a : Arena κ α) (hI : I h k v) : Written I A a (a.define h k v).1 := by
  rw [Arena.define]
  split
  · exact refl a
  · rename_i s hs
    exact setSlot hs (.bind_of_introduced hI)

/-- Assigning binds a name anew where it resolves to, and adds none. -/
theorem assign (a : Arena κ α) (hA : ∀ g, a.resolve h k = .ok (some g) → A g k v) :
    Written I A a (a.assign h k v).1 := by
  rw [Arena.assign, Arena.binder]
  cases hg : a.resolve h k with
  | error r => exact refl a
  | ok g? =>
    cases g? with
    | none => exact refl a
    | some g =>
      obtain ⟨s, hs, hbinds⟩ := binds_of_resolveUpTo hg
      dsimp only
      rw [Arena.define, hs]
      exact setSlot hs (.bind_of_assigned hbinds (hA g hg))

/-- What is bound in a scope that was not there. -/
theorem define_apart (hab : Written I A a b) (hfresh : ∀ s, a.scope h ≠ .ok s) (k : κ) (v : α) :
    Written I A a (b.define h k v).1 := by
  rw [Arena.define]
  split
  · exact hab
  · rename_i s hs
    exact hab.apart hfresh fun g hne => by rw [scope_setSlot hs, if_neg hne]

/-- A scope that was not there is given up. -/
theorem release_apart (hab : Written I A a b) (hfresh : ∀ s, a.scope h ≠ .ok s) :
    Written I A a (b.release h).1 := by
  rw [Arena.release]
  split
  · exact hab
  · dsimp only
    split
    · exact hab
    · exact hab.apart hfresh fun g hne => scope_free hne

end Written

end Arena

end LoxLang
