/-
The scopes that can still be reached.

A scope is anchored if it was entered and not left, or if it is pinned (`Shape.Anchored`).  These
are the scopes in which a running machine can look up a name, now or later: there is a scope behind
the handle, the scope around it is anchored as well (`Shape.Proper.anchored_parent`), and so is the
current one.  From each of them outwards there are finitely many (`Shape.Proper.exists_chain`).
-/
import LoxLang.Proofs.Scope.Frames

namespace LoxLang

variable {σ : Shape} {frames rest : Frames} {g h p : Handle} {b : Bool} {l : List Handle}

/-- The scope was entered and not left, or it is pinned. -/
def Shape.Anchored (σ : Shape) (frames : Frames) (h : Handle) : Prop :=
  h ∈ frames.scopes ∨ σ.Pinned h

/-- The current scope is that of a frame, or else the global one. -/
theorem Frames.current_cases (frames : Frames) :
    frames.current ∈ frames.scopes ∨ frames.current = Arena.globals := by
  cases frames with
  | nil => exact .inr rfl
  | cons frame rest => exact .inl List.mem_cons_self

/-- Around a scope that was entered there is another one, or the global one, or what a function
closes over. -/
theorem Frames.Nested.parent_of_mem (hframes : frames.Nested σ) (hh : h ∈ frames.scopes)
    (hp : σ h = some (some p, b)) : p ∈ frames.scopes ∨ p = Arena.globals ∨ σ.Pinned p := by
  induction frames with
  | nil => exact absurd hh List.not_mem_nil
  | cons frame rest ih =>
    rcases List.mem_cons.mp hh with rfl | hh
    · cases frame with
      | block s =>
        obtain ⟨⟨b', hs, -⟩, -⟩ := hframes
        obtain ⟨rfl, -⟩ : current rest = p ∧ b' = b := by simpa using hs.symm.trans hp
        exact (current_cases rest).imp (List.mem_cons_of_mem _) .inl
      | call f s =>
        obtain ⟨⟨hs, hpinned⟩, -⟩ := hframes
        obtain ⟨rfl, -⟩ : f.closure = p ∧ false = b := by simpa using hs.symm.trans hp
        exact .inr (.inr hpinned)
    · exact (ih hframes.tail hh).imp_left (List.mem_cons_of_mem _)

/-- From a scope that was entered outwards there are finitely many, if this is so for the global
scope and for those that functions close over. -/
theorem Frames.Nested.exists_chain (hframes : frames.Nested σ)
    (hpinned : ∀ {g}, σ.Pinned g → ∃ l, σ.Chain g l) (hglobals : ∃ l, σ.Chain Arena.globals l)
    (hh : h ∈ frames.scopes) : ∃ l, σ.Chain h l := by
  induction frames generalizing h with
  | nil => exact absurd hh List.not_mem_nil
  | cons frame rest ih =>
    have ih {g : Handle} (hg : g ∈ Frames.scopes rest) := @ih g hframes.tail hg
    rcases List.mem_cons.mp hh with rfl | hh
    · cases frame with
      | block s =>
        obtain ⟨⟨b, hs, -⟩, -⟩ := hframes
        rcases Frames.current_cases rest with hcurrent | hcurrent
        · exact (ih hcurrent).imp' _ fun l hl => .step hs hl
        · exact hglobals.imp' _ fun l hl => .step hs (hcurrent ▸ hl)
      | call f s =>
        obtain ⟨⟨hs, hclosure⟩, -⟩ := hframes
        exact (hpinned hclosure).imp' _ fun l hl => .step hs hl
    · exact ih hh

namespace Shape

/-- No scope is on the way outwards from the one around it. -/
theorem Chain.nodup (hl : σ.Chain h l) : l.Nodup := by
  induction hl with
  | last _ => simp
  | @step h p b l scope rest ih =>
    refine List.nodup_cons.mpr ⟨fun hmem => ?_, ih⟩
    -- Otherwise the way outwards from this scope would be a part of itself.
    obtain ⟨k, hk, hkl⟩ := rest.exists_suffix hmem
    rw [hk.unique (.step scope rest)] at hkl
    have hlength := hkl.length_le
    rw [List.length_cons] at hlength
    omega

namespace Proper

theorem anchored_globals (hσ : σ.Proper frames) : σ.Anchored frames Arena.globals :=
  .inr ⟨none, hσ.globals⟩

theorem anchored_current (hσ : σ.Proper frames) : σ.Anchored frames frames.current := by
  rcases frames.current_cases with hcurrent | hcurrent
  · exact .inl hcurrent
  · rw [hcurrent]
    exact hσ.anchored_globals

theorem isSome_of_anchored (hσ : σ.Proper frames) (hh : σ.Anchored frames h) :
    (σ h).isSome := by
  rcases hh with hh | ⟨p, hp⟩
  · obtain ⟨p, b, hp⟩ := hσ.nested.scope_of_mem hh
    exact Option.isSome_of_eq_some hp
  · exact Option.isSome_of_eq_some hp

/-- Outside an anchored scope there is an anchored one. -/
theorem anchored_parent (hσ : σ.Proper frames) (hh : σ.Anchored frames h)
    (hp : σ h = some (some p, b)) : σ.Anchored frames p := by
  rcases hh with hh | hh
  · rcases hσ.nested.parent_of_mem hh hp with hp | rfl | hp
    · exact .inl hp
    · exact hσ.anchored_globals
    · exact .inr hp
  · obtain ⟨l, hl, -, hall⟩ := hσ.pinned h hh
    cases hl with
    | last scope =>
      rw [hp] at scope
      cases scope
    | step scope rest =>
      rw [hp] at scope
      cases scope
      exact .inr (hall p (List.mem_cons_of_mem _ rest.head_mem))

/-- From an anchored scope outwards there are finitely many. -/
theorem exists_chain (hσ : σ.Proper frames) (hh : σ.Anchored frames h) : ∃ l, σ.Chain h l := by
  have hpinned {g : Handle} (hg : σ.Pinned g) : ∃ l, σ.Chain g l :=
    (hσ.pinned g hg).imp fun _ hl => hl.1
  rcases hh with hh | hh
  · exact hσ.nested.exists_chain hpinned (hpinned ⟨none, hσ.globals⟩) hh
  · exact hpinned hh

end Proper

end Shape

/-- Where scopes stay, so do the ways outwards. -/
theorem Arena.Outward.persists {κ α : Type} {a b : Arena κ α} (hab : a.shape.Persists b.shape)
    (hl : a.Outward h l) : b.Outward h l := by
  have scope {g : Handle} {s : Scope κ α} (hs : a.scope g = .ok s) :
      ∃ t, b.scope g = .ok t ∧ t.parent = s.parent := by
    obtain ⟨b', hb', -⟩ := hab g _ _ (Arena.shape_of_scope hs)
    obtain ⟨t, ht, hparent, -⟩ := Arena.shape_eq_some.mp hb'
    exact ⟨t, ht, hparent⟩
  induction hl with
  | last hs parent =>
    obtain ⟨t, ht, hparent⟩ := scope hs
    exact .last ht (hparent.trans parent)
  | step hs parent _ ih =>
    obtain ⟨t, ht, hparent⟩ := scope hs
    exact .step ht (hparent.trans parent) ih

end LoxLang
