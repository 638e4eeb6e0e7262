/-
The scopes that a run has entered.

A run enters a scope for each block and for each call, and leaves them in turn.  `Frames` are the
ones that it has entered and not left, innermost first.  A shape is proper for some frames
(`Shape.Proper`) if each of them is inside the one that it should be: a block inside the scope
that was current, and a call inside the scope that its function closes over.  The latter is
pinned, as are all the scopes around it; but a scope that was entered during a call is not
(`Frames.Nested.not_pinned`).

* `Shape.Proper.pushBlock`, `pushCall`, `leave`, `free`, `pin` — what keeps a shape proper;
* `Frames.Nested.chain_of_call`, `chain_of_blocks` — the scopes from the current one outwards.
-/
import LoxLang.Proofs.Scope.Shape

namespace LoxLang

/-- A scope that was entered for a block, or for a call of a function. -/
inductive Frame where
  | block (scope : Handle)
  | call (f : Function) (scope : Handle)

/-- The scope that was entered. -/
def Frame.scope : Frame → Handle
  | block s => s
  | call _ s => s

/-- The function that was called. -/
def Frame.function? : Frame → Option Function
  | block _ => none
  | call f _ => some f

/-- The scopes that were entered and not left, innermost first. -/
abbrev Frames := List Frame

namespace Frames

/-- The current scope. -/
def current : Frames → Handle
  | [] => Arena.globals
  | frame :: _ => frame.scope

/-- The functions that are called, innermost first. -/
def calls (frames : Frames) : List Function := frames.filterMap Frame.function?

/-- The scopes of all frames. -/
def scopes (frames : Frames) : List Handle := frames.map Frame.scope

/-- The scopes of the calls, and of the blocks that were entered during a call. -/
def ofCalls : Frames → List Handle
  | [] => []
  | .call _ s :: rest => s :: ofCalls rest
  | .block s :: rest => if calls rest = [] then ofCalls rest else s :: ofCalls rest

variable {frames rest : Frames} {f : Function} {s : Handle} {blocks : List Handle}

@[simp] theorem calls_block : calls (.block s :: rest) = calls rest := rfl

@[simp] theorem calls_call : calls (.call f s :: rest) = f :: calls rest := rfl

@[simp] theorem scopes_cons (frame : Frame) :
    scopes (frame :: rest) = frame.scope :: scopes rest := rfl

theorem ofCalls_subset : (frames : Frames) → ofCalls frames ⊆ scopes frames
  | [] => List.Subset.refl _
  | .call _ _ :: rest => List.cons_subset_cons _ (ofCalls_subset rest)
  | .block s :: rest => by
    rw [ofCalls]
    split
    · exact List.subset_cons_of_subset _ (ofCalls_subset rest)
    · exact List.cons_subset_cons _ (ofCalls_subset rest)

/-- Outside all calls there are blocks only. -/
theorem eq_blocks_of_calls (h : calls frames = []) : frames = (scopes frames).map .block := by
  induction frames with
  | nil => rfl
  | cons frame rest ih =>
    cases frame with
    | block s => exact congrArg _ (ih h)
    | call f s => cases h

/-- During a call there are the blocks that were entered since, and then the scope of the call. -/
theorem eq_of_calls {fs : List Function} (h : calls frames = f :: fs) :
    ∃ (blocks : List Handle) (s : Handle) (outer : Frames),
      frames = blocks.map .block ++ .call f s :: outer ∧ calls outer = fs := by
  induction frames with
  | nil => cases h
  | cons frame rest ih =>
    cases frame with
    | block b =>
      obtain ⟨blocks, s, outer, rfl, houter⟩ := ih h
      exact ⟨b :: blocks, s, outer, rfl, houter⟩
    | call g s =>
      cases h
      exact ⟨[], s, rest, rfl, rfl⟩

theorem scopes_of_call (outer : Frames) :
    scopes (blocks.map .block ++ .call f s :: outer) = blocks ++ s :: scopes outer := by
  induction blocks with
  | nil => rfl
  | cons b blocks ih => exact congrArg (b :: ·) ih

/-- During a call, the blocks entered since and the scope of the call count as scopes of calls. -/
theorem ofCalls_of_call (outer : Frames) :
    ofCalls (blocks.map .block ++ .call f s :: outer) = blocks ++ s :: ofCalls outer := by
  induction blocks with
  | nil => rfl
  | cons b blocks ih =>
    have hcalls : calls (blocks.map .block ++ .call f s :: outer) ≠ [] := by
      simp [calls, Frame.function?]
    rw [List.map_cons, List.cons_append, ofCalls, if_neg hcalls, ih]
    rfl

/-- Each frame is inside the scope that it should be, and no scope was entered twice.  What was
entered during a call is not pinned. -/
def Nested (σ : Shape) : Frames → Prop
  | [] => True
  | .block s :: rest =>
    (∃ b, σ s = some (some (current rest), b) ∧ (calls rest ≠ [] → b = false)) ∧
      s ∉ scopes rest ∧ Nested σ rest
  | .call f s :: rest =>
    (σ s = some (some f.closure, false) ∧ σ.Pinned f.closure) ∧ s ∉ scopes rest ∧ Nested σ rest

namespace Nested

variable {σ τ : Shape} {frame : Frame} {l : List Handle}

theorem tail (h : Nested σ (frame :: rest)) : Nested σ rest := by
  cases frame with
  | block s => exact h.2.2
  | call f s => exact h.2.2

theorem not_mem (h : Nested σ (frame :: rest)) : frame.scope ∉ scopes rest := by
  cases frame with
  | block s => exact h.2.1
  | call f s => exact h.2.1

/-- Every frame has a scope, with a scope around it. -/
theorem scope_of_mem (h : frames.Nested σ) (hs : s ∈ frames.scopes) :
    ∃ p b, σ s = some (some p, b) := by
  induction frames with
  | nil => exact absurd hs List.not_mem_nil
  | cons frame rest ih =>
    rcases List.mem_cons.mp hs with rfl | hs
    · cases frame with
      | block s =>
        obtain ⟨⟨b, hb, -⟩, -⟩ := h
        exact ⟨_, b, hb⟩
      | call f s => exact ⟨_, false, h.1.1⟩
    · exact ih h.tail hs

/-- It depends on nothing but the scopes of the frames, and on what is pinned. -/
theorem congr (h : frames.Nested σ) (hscopes : ∀ s ∈ frames.scopes, τ s = σ s)
    (hpinned : ∀ g, σ.Pinned g → τ.Pinned g) : frames.Nested τ := by
  induction frames with
  | nil => trivial
  | cons frame rest ih =>
    have hrest := ih h.tail fun s hs => hscopes s (List.mem_cons_of_mem _ hs)
    have hscope := hscopes frame.scope List.mem_cons_self
    cases frame with
    | block s =>
      obtain ⟨⟨b, hb, hcalls⟩, hnot, -⟩ := h
      exact ⟨⟨b, hscope.trans hb, hcalls⟩, hnot, hrest⟩
    | call f s =>
      obtain ⟨⟨hs, hf⟩, hnot, -⟩ := h
      exact ⟨⟨hscope.trans hs, hpinned _ hf⟩, hnot, hrest⟩

/-- Outside all calls any scope may be pinned. -/
theorem pin (h : frames.Nested σ) (hcalls : frames.calls = []) (l : List Handle) :
    frames.Nested (σ.pin l) := by
  induction frames with
  | nil => trivial
  | cons frame rest ih =>
    cases frame with
    | call f s => cases hcalls
    | block s =>
      obtain ⟨⟨b, hb, -⟩, hnot, hrest⟩ := h
      refine ⟨?_, hnot, ih hrest hcalls⟩
      by_cases hs : s ∈ l
      · exact ⟨true, Shape.pin_of_mem hs hb, fun hne => absurd hcalls hne⟩
      · exact ⟨b, (Shape.pin_of_not_mem hs).trans hb, fun hne => absurd hcalls hne⟩

/-- What was entered during a call is not pinned. -/
theorem not_pinned (h : frames.Nested σ) (hs : s ∈ frames.ofCalls) : ¬σ.Pinned s := by
  induction frames with
  | nil => exact absurd hs List.not_mem_nil
  | cons frame rest ih =>
    cases frame with
    | call f t =>
      rcases List.mem_cons.mp hs with rfl | hs
      · rintro ⟨p, hp⟩
        rw [h.1.1] at hp
        cases hp
      · exact ih h.tail hs
    | block t =>
      rw [ofCalls] at hs
      split at hs
      · exact ih h.tail hs
      · rename_i hcalls
        rcases List.mem_cons.mp hs with rfl | hs
        · obtain ⟨⟨b, hb, hfalse⟩, -⟩ := h
          rintro ⟨p, hp⟩
          rw [hb, hfalse hcalls] at hp
          cases hp
        · exact ih h.tail hs

/-- The scope that the innermost call closes over is pinned. -/
theorem pinned_closure {fs : List Function} (h : frames.Nested σ)
    (hcalls : frames.calls = f :: fs) : σ.Pinned f.closure := by
  obtain ⟨blocks, s, outer, rfl, -⟩ := eq_of_calls hcalls
  induction blocks with
  | nil => exact h.1.2
  | cons b blocks ih => exact ih h.tail hcalls

/-- During a call the scopes outwards are the blocks entered since the call began, the scope of
the call, and then the ones that the function closes over. -/
theorem chain_of_call {outer : Frames} (h : Nested σ (blocks.map .block ++ .call f s :: outer))
    (hl : σ.Chain f.closure l) :
    σ.Chain (current (blocks.map .block ++ .call f s :: outer)) (blocks ++ s :: l) := by
  induction blocks with
  | nil => exact .step h.1.1 hl
  | cons b blocks ih =>
    obtain ⟨⟨_, hb, -⟩, -, hrest⟩ := h
    exact .step hb (ih hrest)

/-- Outside all calls the scopes outwards are the blocks that were entered and the global scope. -/
theorem chain_of_blocks (hglobals : σ Arena.globals = some (none, true))
    (h : Nested σ (blocks.map .block)) :
    σ.Chain (current (blocks.map .block)) (blocks ++ [Arena.globals]) := by
  induction blocks with
  | nil => exact .last hglobals
  | cons b blocks ih =>
    obtain ⟨⟨_, hb, -⟩, -, hrest⟩ := h
    exact .step hb (ih hrest)

theorem nodup (h : frames.Nested σ) : frames.scopes.Nodup := by
  induction frames with
  | nil => exact List.nodup_nil
  | cons frame rest ih => exact List.nodup_cons.mpr ⟨h.not_mem, ih h.tail⟩

end Nested

end Frames

namespace Shape

/-- Scopes are where they should be.  The scopes around a pinned one are pinned, and finitely
many. -/
structure Proper (σ : Shape) (frames : Frames) : Prop where
  globals : σ Arena.globals = some (none, true)
  pinned : ∀ h, σ.Pinned h → ∃ l, σ.Chain h l ∧ l.Nodup ∧ ∀ g ∈ l, σ.Pinned g
  nested : frames.Nested σ

/-- Every scope that is not pinned is one of the frames. -/
def Tight (σ : Shape) (frames : Frames) : Prop :=
  ∀ h p, σ h = some (p, false) → h ∈ frames.scopes

variable {σ τ : Shape} {frames : Frames} {frame : Frame} {f : Function} {h p s : Handle}
  {l : List Handle}

namespace Proper

/-- At first there is the global scope and nothing else. -/
theorem initial {κ α : Type} : (Arena.initial : Arena κ α).shape.Proper [] where
  globals := Arena.shape_initial Arena.globals
  pinned h hh := by
    obtain ⟨p, hp⟩ := hh
    rw [Arena.shape_initial] at hp
    obtain ⟨rfl, -⟩ := Option.ite_none_right_eq_some.mp hp
    refine ⟨[Arena.globals], .last (Arena.shape_initial _), by simp, ?_⟩
    rintro g hg
    rw [List.mem_singleton.mp hg]
    exact ⟨none, Arena.shape_initial _⟩
  nested := trivial

/-- The pinned scopes and the frames are as before. -/
theorem congr (hσ : σ.Proper frames) (hpinned : ∀ g x, σ g = some (x, true) → τ g = some (x, true))
    (hback : ∀ g, τ.Pinned g → σ.Pinned g) (hscopes : ∀ s ∈ frames.scopes, τ s = σ s) :
    τ.Proper frames where
  globals := hpinned _ _ hσ.globals
  pinned g hg := by
    obtain ⟨l, hl, hnodup, hall⟩ := hσ.pinned g (hback g hg)
    have hkeep : ∀ g ∈ l, τ.Pinned g := by
      intro g hg
      obtain ⟨x, hx⟩ := hall g hg
      exact ⟨x, hpinned g x hx⟩
    refine ⟨l, hl.congr fun g hg q b hq => ?_, hnodup, hkeep⟩
    obtain ⟨x, hx⟩ := hall g hg
    rw [hq] at hx
    cases hx
    exact ⟨true, hpinned g q hq⟩
  nested := hσ.nested.congr hscopes fun g ⟨x, hx⟩ => ⟨x, hpinned g x hx⟩

/-- A new scope that is not one of the frames. -/
theorem push (hσ : σ.Proper frames) (hfree : σ s = none) (p : Handle) :
    (σ.push s p).Proper frames := by
  have hne {g : Handle} {x : Option Handle × Bool} (hg : σ g = some x) : g ≠ s := by
    rintro rfl
    rw [hfree] at hg
    cases hg
  refine hσ.congr (fun g x hg => (push_of_ne (hne hg)).trans hg) (fun g => pinned_of_push) ?_
  intro g hg
  obtain ⟨q, b, hq⟩ := hσ.nested.scope_of_mem hg
  exact push_of_ne (hne hq)

theorem not_mem_of_free (hσ : σ.Proper frames) (hfree : σ s = none) : s ∉ frames.scopes := by
  intro hs
  obtain ⟨q, b, hq⟩ := hσ.nested.scope_of_mem hs
  rw [hfree] at hq
  cases hq

/-- A block is entered. -/
theorem pushBlock (hσ : σ.Proper frames) (hfree : σ s = none) :
    (σ.push s frames.current).Proper (.block s :: frames) where
  globals := (hσ.push hfree _).globals
  pinned := (hσ.push hfree _).pinned
  nested := ⟨⟨false, push_self _ _ _, fun _ => rfl⟩, hσ.not_mem_of_free hfree,
    (hσ.push hfree _).nested⟩

/-- A call is entered. -/
theorem pushCall (hσ : σ.Proper frames) (hfree : σ s = none) (hf : σ.Pinned f.closure) :
    (σ.push s f.closure).Proper (.call f s :: frames) where
  globals := (hσ.push hfree _).globals
  pinned := (hσ.push hfree _).pinned
  nested := by
    have hne : f.closure ≠ s := by
      obtain ⟨x, hx⟩ := hf
      rintro rfl
      rw [hfree] at hx
      cases hx
    have hf' : (σ.push s f.closure).Pinned f.closure := by
      obtain ⟨x, hx⟩ := hf
      exact ⟨x, (push_of_ne hne).trans hx⟩
    exact ⟨⟨push_self _ _ _, hf'⟩, hσ.not_mem_of_free hfree, (hσ.push hfree _).nested⟩

/-- A frame is left, and its scope stays. -/
theorem leave (hσ : σ.Proper (frame :: frames)) : σ.Proper frames where
  globals := hσ.globals
  pinned := hσ.pinned
  nested := hσ.nested.tail

/-- A frame is left, and its scope is given up. -/
theorem free (hσ : σ.Proper (frame :: frames)) (hunpinned : ¬σ.Pinned frame.scope) :
    (σ.free frame.scope).Proper frames := by
  refine hσ.leave.congr (fun g x hg => ?_) ?_ fun g hg => ?_
  · refine (free_of_ne ?_).trans hg
    rintro rfl
    exact hunpinned ⟨x, hg⟩
  · rintro g ⟨x, hx⟩
    by_cases hg : g = frame.scope
    · rw [Shape.free, if_pos hg] at hx
      cases hx
    · rw [free_of_ne hg] at hx
      exact ⟨x, hx⟩
  · refine free_of_ne ?_
    rintro rfl
    exact hσ.nested.not_mem hg

/-- Outside all calls the scopes from the current one outwards are those of the frames and the
global one. -/
theorem chain_outside (hσ : σ.Proper frames) (hcalls : frames.calls = []) :
    σ.Chain frames.current (frames.scopes ++ [Arena.globals]) := by
  have heq := Frames.eq_blocks_of_calls hcalls
  have hnested := hσ.nested
  rw [heq] at hnested
  have hchain := hnested.chain_of_blocks hσ.globals
  rwa [← heq] at hchain

theorem nodup_outside (hσ : σ.Proper frames) : (frames.scopes ++ [Arena.globals]).Nodup := by
  refine List.nodup_append.mpr ⟨hσ.nested.nodup, List.nodup_cons.mpr ⟨by simp, List.nodup_nil⟩, ?_⟩
  rintro g hg _ hglobals rfl
  obtain rfl := List.mem_singleton.mp hglobals
  obtain ⟨p, b, hs⟩ := hσ.nested.scope_of_mem hg
  rw [hσ.globals] at hs
  cases hs

/-- Outside all calls the current scope may be pinned, with the ones around it. -/
theorem pin (hσ : σ.Proper frames) (hcalls : frames.calls = []) :
    (σ.pin (frames.scopes ++ [Arena.globals])).Proper frames := by
  set l := frames.scopes ++ [Arena.globals]
  have hchain := hσ.chain_outside hcalls
  have hlive : ∀ g ∈ l, (σ g).isSome := fun g hg => hchain.isSome_of_mem hg
  -- The ways outwards are the same as before, whatever is pinned.
  have hsame {h : Handle} {k : List Handle} (hk : σ.Chain h k) : (σ.pin l).Chain h k := by
    refine hk.congr fun g _ q b hq => ?_
    by_cases hg : g ∈ l
    · exact ⟨true, pin_of_mem hg hq⟩
    · exact ⟨b, (pin_of_not_mem hg).trans hq⟩
  refine ⟨pin_of_mem (by simp [l]) hσ.globals, fun h hh => ?_, hσ.nested.pin hcalls l⟩
  rcases (pinned_pin_iff hlive).mp hh with hh | hh
  · obtain ⟨k, hk, hnodup, hall⟩ := hσ.pinned h hh
    exact ⟨k, hsame hk, hnodup, fun g hg => (pinned_pin_iff hlive).mpr (.inl (hall g hg))⟩
  -- From one of the frames, the way outwards is the rest of the list.
  · obtain ⟨k, hk, hkl⟩ := hchain.exists_suffix hh
    refine ⟨k, hsame hk, hσ.nodup_outside.sublist hkl.sublist, fun g hg => ?_⟩
    exact (pinned_pin_iff hlive).mpr (.inr (hkl.subset hg))

end Proper

namespace Tight

theorem initial {κ α : Type} : (Arena.initial : Arena κ α).shape.Tight [] := by
  intro h p hp
  rw [Arena.shape_initial] at hp
  obtain ⟨-, hp⟩ := Option.ite_none_right_eq_some.mp hp
  cases hp

theorem push (hσ : σ.Tight frames) (frame : Frame) (p : Handle) :
    (σ.push frame.scope p).Tight (frame :: frames) := by
  intro h q hh
  by_cases hs : h = frame.scope
  · exact hs ▸ List.mem_cons_self
  · rw [push_of_ne hs] at hh
    exact List.mem_cons_of_mem _ (hσ h q hh)

theorem free (hσ : σ.Tight (frame :: frames)) : (σ.free frame.scope).Tight frames := by
  intro h q hh
  by_cases hs : h = frame.scope
  · rw [Shape.free, if_pos hs] at hh
    cases hh
  · rw [free_of_ne hs] at hh
    exact (List.mem_cons.mp (hσ h q hh)).resolve_left hs

theorem leave (hσ : σ.Tight (frame :: frames)) (hpinned : σ.Pinned frame.scope) :
    σ.Tight frames := by
  intro h q hh
  refine (List.mem_cons.mp (hσ h q hh)).resolve_left ?_
  rintro rfl
  obtain ⟨x, hx⟩ := hpinned
  rw [hh] at hx
  cases hx

theorem pin (hσ : σ.Tight frames) (l : List Handle) : (σ.pin l).Tight frames := by
  intro h q hh
  by_cases hs : h ∈ l
  · rw [Shape.pin, if_pos hs] at hh
    obtain ⟨x, -, hx⟩ := Option.map_eq_some_iff.mp hh
    cases hx
  · rw [pin_of_not_mem hs] at hh
    exact hσ h q hh

end Tight

end Shape

end LoxLang
