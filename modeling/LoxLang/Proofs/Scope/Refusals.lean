/-
What a refused operation leaves behind.

An operation that looks first and changes something afterwards leaves the arena as it was when it is
refused (`apply_of_refused`).  Pinning is the one that does not: it pins each scope as it comes to
it, and is refused when it comes to a handle behind which there is no scope (`Arena.BreaksOff`).
Then the scopes up to there stay pinned, and all else is as it was (`pin_of_refused`).

`refusals_leave_all_but_pins` puts both together, for every history of operations.
`scope_pinned_in_vain` is what can come of it: a scope that is pinned, inside one that is not.
-/
import LoxLang.Proofs.Scope.Allocation

namespace LoxLang

namespace Arena

variable {κ α : Type} {a b : Arena κ α} {g h d : Handle} {s : Scope κ α} {l : List Handle}
  {r : Refusal}

/-- From a scope outwards there are these scopes, none of them pinned, and then a handle behind
which there is no scope. -/
inductive BreaksOff (a : Arena κ α) (d : Handle) (r : Refusal) : Handle → List Handle → Prop where
  | here (refused : a.scope d = .error r) : BreaksOff a d r d []
  | step {h p : Handle} {s : Scope κ α} {l : List Handle} (scope : a.scope h = .ok s)
      (unpinned : s.pinned = false) (parent : s.parent = some p) (rest : BreaksOff a d r p l) :
      BreaksOff a d r h (h :: l)

/-- A scope that is pinned is not on such a way. -/
theorem BreaksOff.not_mem (hl : a.BreaksOff d r h l) (hs : a.scope g = .ok s)
    (hpinned : s.pinned = true) : g ∉ l := by
  induction hl with
  | here _ => exact List.not_mem_nil
  | @step h p t l scope unpinned _ _ ih =>
    rintro hg
    rcases List.mem_cons.mp hg with rfl | hg
    · rw [← scope_unique hs scope, hpinned] at unpinned
      cases unpinned
    · exact ih hg

/-- Every scope on such a way is there, and not pinned. -/
theorem BreaksOff.scope_of_mem (hl : a.BreaksOff d r h l) (hg : g ∈ l) :
    ∃ s, a.scope g = .ok s ∧ s.pinned = false := by
  induction hl with
  | here _ => cases hg
  | step scope unpinned _ _ ih =>
    rcases List.mem_cons.mp hg with rfl | hg
    · exact ⟨_, scope, unpinned⟩
    · exact ih hg

/-- The way is the same in an arena that differs at another scope only. -/
theorem BreaksOff.of_setSlot {t : Scope κ α} (hs : a.scope g = .ok s) (ht : t.pinned = true)
    (hl : (a.setSlot g (some t)).BreaksOff d r h l) : a.BreaksOff d r h l := by
  induction hl with
  | here refused =>
    rw [scope_setSlot hs] at refused
    split at refused
    · cases refused
    · exact .here refused
  | step scope unpinned parent _ ih =>
    rw [scope_setSlot hs] at scope
    split at scope
    · cases scope
      rw [ht] at unpinned
      cases unpinned
    · exact .step scope unpinned parent ih

/-- A walk that pins and is refused has pinned the scopes that it came to, and no others. -/
theorem pinUpTo_of_refused {n : Nat} (hrefused : (a.pinUpTo n h).2 = .error r)
    (hends : r ≠ .endless) :
    ∃ d l, a.BreaksOff d r h l ∧ l.Nodup ∧ Pinned l a (a.pinUpTo n h).1 := by
  induction n generalizing a h with
  | zero =>
    cases hrefused
    exact absurd rfl hends
  | succ n ih =>
    rw [Arena.pinUpTo] at hrefused ⊢
    cases hs : a.scope h with
    | error r' =>
      obtain rfl : r' = r := by simpa [hs] using hrefused
      exact ⟨h, [], .here hs, List.nodup_nil, .refl (by simp)⟩
    | ok s =>
      cases hpinned : s.pinned with
      | true => simp [hs, hpinned] at hrefused
      | false =>
        cases hparent : s.parent with
        | none => simp [hs, hpinned, hparent] at hrefused
        | some p =>
          obtain ⟨_, bindings, _⟩ := s
          obtain rfl := hparent
          obtain rfl := hpinned
          let t : Scope κ α := ⟨some p, bindings, true⟩
          simp only [hs, Bool.false_eq_true, if_false] at hrefused ⊢
          obtain ⟨d, l, hl, hnodup, hpin⟩ := ih hrefused
          -- The walk goes on in the arena in which this scope is pinned, so it does not come back.
          have hnot : h ∉ l := hl.not_mem (s := t) (by rw [scope_setSlot hs, if_pos rfl]) rfl
          exact ⟨d, h :: l, .step hs rfl rfl (hl.of_setSlot (t := t) hs rfl),
            List.nodup_cons.mpr ⟨hnot, hnodup⟩, .cons hs hnot hpin⟩

/-- When pinning is refused, the scopes up to the handle without a scope are pinned, and all else is
as it was. -/
theorem pin_of_refused (hrefused : (a.pin h).2 = .error r) :
    ∃ d l, a.BreaksOff d r h l ∧ l.Nodup ∧ Pinned l a (a.pin h).1 :=
  pinUpTo_of_refused hrefused fun hr => pin_ends a h (hr ▸ hrefused)

theorem release_of_refused (hrefused : (a.release h).2 = .error r) : (a.release h).1 = a := by
  rw [release] at hrefused ⊢
  split at hrefused
  · rfl
  · cases hrefused

theorem map_eq_error {β γ : Type} {x : Except Refusal β} {f : β → γ} :
    x.map f = .error r ↔ x = .error r := by
  cases x <;> simp [Except.map]

variable [DecidableEq κ]

theorem define_of_refused {k : κ} {v : α} (hrefused : (a.define h k v).2 = .error r) :
    (a.define h k v).1 = a := by
  rw [define] at hrefused ⊢
  split at hrefused
  · rfl
  · cases hrefused

theorem assign_of_refused {k : κ} {v : α} (hrefused : (a.assign h k v).2 = .error r) :
    (a.assign h k v).1 = a := by
  rw [assign] at hrefused ⊢
  split at hrefused
  · rfl
  · exact define_of_refused hrefused

/-- A refused operation other than pinning leaves the arena as it was. -/
theorem apply_of_refused {op : Operation κ α} (hrefused : (a.apply op).2 = .error r)
    (hop : ∀ h, op ≠ .pin h) : (a.apply op).1 = a := by
  cases op with
  | pin h => exact absurd rfl (hop h)
  | push p => cases hrefused
  | release h => exact release_of_refused (map_eq_error.mp hrefused)
  | define h k v => exact define_of_refused (map_eq_error.mp hrefused)
  | assign h k v => exact assign_of_refused (map_eq_error.mp hrefused)
  | get h k | parent h | scope h | resolve h k | liveCount => rfl

/-- **What a refused operation leaves behind.**  After any history of operations, an operation that
is refused leaves the arena as it was, unless it is one that pins.  One that pins has come to a
handle behind which there is no scope: the scopes on the way there are pinned then, and all else is
as it was. -/
theorem refusals_leave_all_but_pins (ops : List (Operation κ α)) (op : Operation κ α) (r : Refusal)
    (hrefused : ((after ops).apply op).2 = .error r) :
    let a := after ops
    let b := (a.apply op).1
    ((∀ h, op ≠ .pin h) → b = a) ∧
      ∀ h, op = .pin h → ∃ d l, a.BreaksOff d r h l ∧ l.Nodup ∧ b.vacant = a.vacant ∧
        b.slots.size = a.slots.size ∧ (∀ g : Handle, g ∉ l → b.slots[g]? = a.slots[g]?) ∧
        ∀ g ∈ l, ∃ s, a.scope g = .ok s ∧ s.pinned = false ∧
          b.scope g = .ok { s with pinned := true } := by
  refine ⟨apply_of_refused hrefused, ?_⟩
  rintro h rfl
  obtain ⟨d, l, hl, hnodup, hpin⟩ := pin_of_refused (map_eq_error.mp hrefused)
  refine ⟨d, l, hl, hnodup, hpin.vacant, hpin.size, hpin.outside, fun g hg => ?_⟩
  obtain ⟨s, hs, hunpinned⟩ := hl.scope_of_mem hg
  exact ⟨s, hs, hunpinned, hpin.inside g hg s hs⟩

/-- The scope around the second one was released, so that it is pinned in vain. -/
theorem refusals_leave_all_but_pins_of_orphan :
    let ops : List (Operation String Nat) := [.push (some 0), .push (some 1), .release 1]
    let a := after ops
    let b := (a.apply (.pin 2)).1
    (a.apply (.pin 2)).2 = .error (.released 1) ∧
      ∃ d l, a.BreaksOff d (.released 1) 2 l ∧ b.vacant = a.vacant ∧
        ∀ g : Handle, g ∉ l → b.slots[g]? = a.slots[g]? := by
  intro ops a b
  have hrefused : (a.apply (.pin 2)).2 = .error (.released 1) := rfl
  obtain ⟨-, hpin⟩ := refusals_leave_all_but_pins ops (.pin 2) (.released 1) hrefused
  obtain ⟨d, l, hl, -, hvacant, -, houtside, -⟩ := hpin 2 rfl
  exact ⟨hrefused, d, l, hl, hvacant, houtside⟩

/-- **A refused operation can change an arena.**  The scope around the second one was released, so
that pinning it is refused; it is pinned all the same.  When its slot is taken by another scope and
the second one is pinned again, that is accepted, and the scope around it stays unpinned. -/
theorem scope_pinned_in_vain :
    let a : Arena String Nat := after [.push (some 0), .push (some 1), .release 1]
    let b := (a.apply (.pin 2)).1
    let c := (b.push (some 0)).1
    (a.apply (.pin 2)).2 = .error (.released 1) ∧
      a.scope 2 = .ok ⟨some 1, [], false⟩ ∧ b.scope 2 = .ok ⟨some 1, [], true⟩ ∧ b ≠ a ∧
      c.pin 2 = (c, .ok ()) ∧ c.scope 2 = .ok ⟨some 1, [], true⟩ ∧
      c.scope 1 = .ok ⟨some 0, [], false⟩ := by
  intro a b c
  have hbefore : a.scope 2 = .ok ⟨some 1, [], false⟩ := rfl
  have hafter : b.scope 2 = .ok ⟨some 1, [], true⟩ := rfl
  refine ⟨rfl, hbefore, hafter, fun hab => ?_, rfl, rfl, rfl⟩
  rw [hab, hbefore] at hafter
  cases hafter

end Arena

end LoxLang
