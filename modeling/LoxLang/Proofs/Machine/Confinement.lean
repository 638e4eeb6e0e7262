/-
No call sees the variables of another one.

While the body of a function is executed, the scopes outwards from the current one are the blocks
that were entered since the call began, the scope of the call, and then those that the function
closes over.  The latter are the global scope and blocks that were entered while no call was under
way, whatever became of the function since it was declared.

* `Reached.known` — every pinned scope was pinned by a declaration that came before;
* `calls_confined` — what the scopes are at every moment that is reached.
-/
import LoxLang.Proofs.Machine.Leaks

namespace LoxLang

/-! ### Pinned scopes and the declarations that pinned them -/

/-- A block that was entered while no call was under way, and around a function that was declared
before: the next function is not the first one after it. -/
def Captured (settings : Settings) (requests : List Request) (m : Machine) (h : Handle) : Prop :=
  ∃ D, Reached settings requests D ∧ D.Declares ∧ D.machine.nextId < m.nextId ∧
    Frame.block h ∈ D.frames

/-- Every pinned scope is the global one, or was captured. -/
def Known (settings : Settings) (requests : List Request) (m : Machine) : Prop :=
  ∀ h, m.arena.shape.Pinned h → h = Arena.globals ∨ Captured settings requests m h

section

variable {settings : Settings} {requests : List Request} {m n m₁ : Machine} {M N D : Moment}
  {h : Handle}

theorem Captured.mono (hid : m.nextId ≤ n.nextId) (hh : Captured settings requests m h) :
    Captured settings requests n h := by
  obtain ⟨D, hD, hdeclares, hlt, hmem⟩ := hh
  exact ⟨D, hD, hdeclares, hlt.trans_le hid, hmem⟩

/-- As long as nothing is pinned, what is known stays known. -/
theorem Known.mono (hm : Known settings requests m)
    (hpinned : ∀ h, n.arena.shape.Pinned h → m.arena.shape.Pinned h) (hid : m.nextId ≤ n.nextId) :
    Known settings requests n :=
  fun h hh => (hm h (hpinned h hh)).imp_right (·.mono hid)

theorem Known.of_related {α β : Type} {stops : layout.World → Stop → Stop → Prop}
    {results : layout.World → α → β → Prop} {w : Layout} {x : Outcome α} {y : Outcome β}
    (hknown : Known settings requests m) (hm : m.Fits w) (hcalm : w.Calm)
    (h : Outcome.Related layout stops results w x y) : Known settings requests x.machine := by
  refine hknown.mono (fun g hg => ?_) (h.growsTo hm).declared
  rw [hm.shape]
  exact (h.pinned_iff hcalm g).mp hg

theorem Known.of_writes {α : Type} {x : Effect α} (hx : x.WritesOnly)
    (hknown : Known settings requests m) : Known settings requests (x m).machine := by
  obtain ⟨harena, hid⟩ := hx m
  refine hknown.mono (fun g hg => ?_) hid.ge
  rwa [harena] at hg

theorem Reached.inwards (hM : Reached settings requests M) (hMN : Leads settings M N) :
    Reached settings requests N := by
  obtain ⟨before, request, after, hsplit, hM⟩ := hM
  exact ⟨before, request, after, hsplit, .inwards hM hMN⟩

theorem Reached.of_leads (hM : Reached settings requests M)
    (hMN : Relation.ReflTransGen (Leads settings) M N) : Reached settings requests N := by
  obtain ⟨before, request, after, hsplit, hM⟩ := hM
  exact ⟨before, request, after, hsplit, hM.of_leads hMN⟩

variable (hreclaim : settings.reclaim = true)
include hreclaim

/-- What a declaration in the course of a moment pins is captured from then on. -/
theorem captured_of_declared (hD : Reached settings requests D) (hdeclares : D.Declares)
    (hgrows : (D.outcome settings).machine.GrowsTo n)
    (hh : h ∈ D.frames.scopes ++ [Arena.globals]) :
    h = Arena.globals ∨ Captured settings requests n h := by
  have hfits : D.Fits False := hD.fits hreclaim False.elim
  rcases List.mem_append.mp hh with hh | hh
  · have hnext : D.machine.nextId < (D.outcome settings).machine.nextId :=
      next_of_declared hfits hdeclares
    exact .inr ⟨D, hD, hdeclares, hnext.trans_le hgrows.declared, (hfits.block_iff hdeclares).mpr hh⟩
  · exact .inl (List.mem_singleton.mp hh)

/-- What is known at a moment is known when its node has been evaluated or executed. -/
theorem Known.outcome (hM : Reached settings requests M)
    (hknown : Known settings requests M.machine) :
    Known settings requests (M.outcome settings).machine := by
  have hfits : M.Fits False := hM.fits hreclaim False.elim
  by_cases hexecuting : M.executing = true
  · have hgrows := (hfits.outcome hreclaim).growsTo (hfits.machine False)
    intro h hh
    rcases pinned_of_outcome hreclaim hfits hexecuting h hh with hh | ⟨D, hMD, hD, hh⟩
    · exact (hknown h hh).imp_right (·.mono hgrows.declared)
    · exact captured_of_declared hreclaim (hM.of_leads hMD) hD
        (grows_of_declared hreclaim hfits hMD hD).2 hh
  · rw [Moment.outcome, if_neg hexecuting]
    exact hknown.of_related (hfits.machine True) (.inl trivial)
      (evaluateUpTo_fits hreclaim _ (hfits.machine True) False.elim)

/-- So it goes with statements one after the other. -/
theorem Known.executeAll {bound : Nat} {frames : Frames} {es : List Node}
    (hes : ∀ before e after m₁, es = before ++ e :: after →
      executeAll (executeUpTo settings bound) before m = .done () m₁ →
      Reached settings requests ⟨bound, true, e, frames, m₁⟩)
    (hm : Known settings requests m) :
    Known settings requests (executeAll (executeUpTo settings bound) es m).machine := by
  refine executeAll_induction es (fun before e after m₁ hsplit hbefore hm₁ => ?_) hm
  exact Known.outcome hreclaim (hes before e after m₁ hsplit hbefore) hm₁

/-- So it goes with the rounds of a loop. -/
theorem Rounds.known {bound k : Nat} {condition body : Node} {frames : Frames}
    (hM : Reached settings requests ⟨bound + 1, true, .loop condition body, frames, m⟩)
    (hm : Known settings requests m) (hk : k < bound)
    (hrounds : Rounds settings bound condition body m k m₁) : Known settings requests m₁ := by
  induction hrounds with
  | none => exact hm
  | @more k m₁ m₂ m₃ v w before holds truthy done ih =>
    have hk' : k < bound := by omega
    have h₂ := Known.outcome hreclaim (hM.inwards (.condition before hk')) (ih hk')
    have hcondition : Moment.outcome settings ⟨bound, false, condition, frames, m₁⟩ = .done v m₂ :=
      holds
    rw [hcondition] at h₂
    have h₃ := Known.outcome hreclaim (hM.inwards (.round before hk' holds truthy)) h₂
    have hbody : Moment.outcome settings ⟨bound, true, body, frames, m₂⟩ = .done w m₃ := done
    rwa [hbody] at h₃

/-- What is known at a moment is known at the moments in the course of it. -/
theorem Leads.known (hMN : Leads settings M N) (hM : Reached settings requests M)
    (hknown : Known settings requests M.machine) : Known settings requests N.machine := by
  have hfits : M.Fits False := hM.fits hreclaim False.elim
  cases hMN with
  | @operand bound node e frames m m₁ before after vs expression operands evaluated goesOn =>
    have hm := hfits.machine True
    have h₁ := hknown.of_related hm (.inl trivial)
      (evaluateAll_fits hreclaim bound hm fun e (_ : e ∈ before) h => False.elim h)
    rwa [evaluated] at h₁
  | @body bound callee e paren arguments before after frames m m₁ m₂ m₃ m₄ f vs s evaluated count
      traced room opened statements executed =>
    have hnode : False → (Node.call callee paren arguments).NamesParameters := False.elim
    obtain ⟨u, v, hu, hv, hm₄, -⟩ := body_fits hreclaim (hfits.machine True) hnode evaluated
      count traced opened statements executed
    refine hknown.mono (fun g hg => ?_) ?_
    · -- Neither the operands nor the statements of the body pin anything.
      rw [hm₄.shape] at hg
      have hcalled := hv.calm (.inr (by simp [Layout.enter])) g hg
      exact hu.calm (.inl trivial) g (Shape.pinned_of_push hcalled)
    · rw [hm₄.declared]
      exact hu.declared.trans hv.declared
  | expression => exact hknown
  | @block bound e before after frames m m₁ s entered executed =>
    obtain rfl := entered
    set inner : Machine := { m with
      arena := (m.arena.push (some m.current)).1
      current := (m.arena.push (some m.current)).2 }
    have hentered : Known settings requests inner := by
      refine hknown.mono (fun g hg => ?_) (Nat.le_refl _)
      rw [Arena.shape_push (hfits.machine False).tidy] at hg
      exact Shape.pinned_of_push hg
    have hreached (before' : List Node) (e' : Node) (after' : List Node) (m' : Machine)
        (hsplit : before = before' ++ e' :: after')
        (hbefore' : executeAll (executeUpTo settings bound) before' inner = .done () m') :
        Reached settings requests ⟨bound, true, e', .block inner.current :: frames, m'⟩ := by
      rw [hsplit, List.append_assoc, List.cons_append] at hM
      exact hM.inwards (.block rfl hbefore')
    have h₁ := Known.executeAll hreclaim hreached hentered
    rwa [executed] at h₁
  | @branch bound condition thenBranch elseBranch e frames m m₁ m₂ v evaluated traced taken =>
    have hcondition : Leads settings ⟨bound + 1, true, .branch condition thenBranch elseBranch, frames, m⟩
        ⟨bound, false, condition, frames, m⟩ :=
      .expression rfl (by simp [Node.operands]) (by simp) (by simp)
    have h₁ := Known.outcome hreclaim (hM.inwards hcondition) hknown
    have houtcome : Moment.outcome settings ⟨bound, false, condition, frames, m⟩ = .done v m₁ :=
      evaluated
    rw [houtcome] at h₁
    have h₂ := Known.of_writes (.traceFrom 3 settings (branchLine condition v)) h₁
    rwa [Outcome.machine, traced] at h₂
  | condition rounds bounded => exact rounds.known hreclaim hM hknown bounded
  | @round bound k condition body frames m m₁ m₂ v rounds bounded evaluated truthy =>
    have h₁ := rounds.known hreclaim hM hknown bounded
    have h₂ := Known.outcome hreclaim (hM.inwards (.condition rounds bounded)) h₁
    have houtcome : Moment.outcome settings ⟨bound, false, condition, frames, m₁⟩ = .done v m₂ :=
      evaluated
    rwa [houtcome] at h₂

/-! ### Whole sessions -/

/-- The machine grows from run to run. -/
theorem leftBy_grows (hm : m.Fits (m.rest False)) : m.GrowsTo (leftBy settings requests m) := by
  induction requests generalizing m with
  | nil => exact .refl m
  | cons request rest ih =>
    have hrun : m.GrowsTo (request.run settings m).machine :=
      (run_fits hreclaim False.elim hm).growsTo hm
    have hrest : (leftBy settings [request] m).Fits ((leftBy settings [request] m).rest False) :=
      leftBy_fits hreclaim False.elim hm
    exact hrun.trans (ih hrest)

/-- A function that is declared in a session counts when the session is over. -/
theorem Reached.grows_to_end (hD : Reached settings requests D) (hdeclares : D.Declares) :
    (D.outcome settings).machine.GrowsTo (leftBy settings requests .initial) := by
  obtain ⟨before, request, after, rfl, hD⟩ := hD
  have hbefore : (leftBy settings before .initial).Fits
      ((leftBy settings before .initial).rest False) := rest_fits hreclaim False.elim
  have hrun : (leftBy settings (before ++ [request]) .initial).Fits
      ((leftBy settings (before ++ [request]) .initial).rest False) := rest_fits hreclaim False.elim
  have hend : Machine.GrowsTo _ (leftBy settings after _) := leftBy_grows hreclaim hrun
  rw [leftBy_concat] at hend
  have hsplit : leftBy settings (before ++ request :: after) .initial
      = leftBy settings after (request.run settings (leftBy settings before .initial)).machine := by
    rw [leftBy, List.foldl_append]
    rfl
  rw [hsplit]
  exact (hD.grows_to_end hreclaim hbefore .refl hdeclares).trans hend

/-- After some runs of a session every pinned scope is known. -/
theorem known_leftBy {rest : List Request} :
    Known settings (requests ++ rest) (leftBy settings requests .initial) := by
  intro h hh
  rcases (pinned_of_session hreclaim).mp hh with rfl | ⟨D, hD, hdeclares, hh⟩
  · exact .inl rfl
  · have hD' : Reached settings (requests ++ rest) D := by
      obtain ⟨before, request, after, rfl, hM⟩ := hD
      exact ⟨before, request, after ++ rest, by simp, hM⟩
    exact captured_of_declared hreclaim hD' hdeclares (hD.grows_to_end hreclaim hdeclares)
      (List.mem_append_left _ hh)

/-- At every moment of a session every pinned scope was pinned by a declaration that came before. -/
theorem Reached.known (hM : Reached settings requests M) : Known settings requests M.machine := by
  obtain ⟨before, request, after, rfl, hM⟩ := hM
  have hreached {N : Moment} (hN : request.Reaches settings (leftBy settings before .initial) N) :
      Reached settings (before ++ request :: after) N := ⟨before, request, after, rfl, hN⟩
  induction hM with
  | @statement e es rest m₀ m₁ statements opened executed =>
    obtain ⟨m₀', opened', harena, hid⟩ := Request.opening_done settings request (es ++ e :: rest)
      (leftBy settings before .initial)
    rw [opened] at opened'
    cases opened'
    have h₀ : Known settings (before ++ request :: after) m₀ :=
      (known_leftBy hreclaim).mono (fun h hh => by rwa [harena] at hh) hid.ge
    have hstatement (es' : List Node) (e' : Node) (rest' : List Node) (m' : Machine)
        (hsplit : es = es' ++ e' :: rest')
        (hbefore : executeAll (executeUpTo settings settings.patience) es' m₀ = .done () m') :
        Reached settings (before ++ request :: after) ⟨settings.patience, true, e', [], m'⟩ := by
      rw [hsplit, List.append_assoc, List.cons_append] at statements opened
      exact hreached (.statement statements opened hbefore)
    have h₁ := Known.executeAll hreclaim hstatement h₀
    rwa [executed] at h₁
  | inwards hM leads ih => exact leads.known hreclaim (hreached hM) ih

end

/-! ### Where names are looked up -/

/-- The scopes that a function closes over are not the scope of any call that is under way, nor of a
block that was entered during one.  They are the global scope and blocks that were entered while no
call was under way. -/
def Function.Confined (settings : Settings) (requests : List Request) (frames : Frames) (m : Machine)
    (f : Function) : Prop :=
  ∃ l, m.arena.Outward f.closure l ∧
    ∀ h ∈ l, h ∉ frames.ofCalls ∧ (h = Arena.globals ∨ Captured settings requests m h)

/-- What holds of a machine in which these scopes were entered and not left. -/
structure Machine.Confined (settings : Settings) (requests : List Request) (frames : Frames)
    (m : Machine) : Prop where
  /-- During a call the scopes outwards are the blocks that were entered since it began, its own
  scope, which binds the parameters, and those that the function closes over.  Names are looked up
  there, and none of these scopes belongs to a call further out. -/
  chain : ∀ f fs, m.calls = f :: fs → ∃ (blocks : List Handle) (s : Handle) (outer : Frames)
    (l : List Handle), frames = blocks.map .block ++ .call f s :: outer ∧ outer.calls = fs ∧
      m.arena.Outward f.closure l ∧ m.arena.Outward m.current (blocks ++ s :: l) ∧
      (∀ p ∈ f.params, ∀ k ∈ Key.ofName? p.lexeme, m.arena.bindsAt k s) ∧
      (∀ k, m.arena.resolve m.current k = .ok ((blocks ++ s :: l).find? (m.arena.bindsAt k))) ∧
      ∀ g ∈ blocks ++ s :: l, g ∉ outer.ofCalls
  /-- This goes for every function that is the value of a name … -/
  values : m.arena.Holds fun v => ∀ f, v = .function f → f.Confined settings requests frames m
  /-- … and for every one that is called. -/
  calls : ∀ f ∈ m.calls, f.Confined settings requests frames m

section

variable {settings : Settings} {requests : List Request} {m : Machine} {w : Layout} {f : Function}
  {fs : List Function}

theorem Machine.Fits.function_confined (hm : m.Fits w) (hknown : Known settings requests m)
    (hf : w.shape.Pinned f.closure) : f.Confined settings requests w.frames m := by
  obtain ⟨l, hl, -, hall⟩ := hm.proper.pinned _ hf
  refine ⟨l, Arena.outward_of_chain (by rwa [hm.shape]), fun h hh => ⟨fun hcalls => ?_, ?_⟩⟩
  · exact hm.proper.nested.not_pinned hcalls (hall h hh)
  · exact hknown h (by rw [hm.shape]; exact hall h hh)

/-- The scopes outwards during a call. -/
theorem Machine.Fits.chain_of_call (hm : m.Fits w) (hcalls : w.frames.calls = f :: fs) :
    ∃ (blocks : List Handle) (s : Handle) (outer : Frames) (l : List Handle),
      w.frames = blocks.map .block ++ .call f s :: outer ∧ outer.calls = fs ∧
      m.arena.Outward f.closure l ∧ m.arena.Outward m.current (blocks ++ s :: l) ∧
      (blocks ++ s :: l).Nodup ∧ ∀ g ∈ blocks ++ s :: l, g ∉ outer.ofCalls := by
  have hnested := hm.proper.nested
  obtain ⟨l, hl, hnodup, hall⟩ := hm.proper.pinned _ (hnested.pinned_closure hcalls)
  obtain ⟨blocks, s, outer, hframes, houter⟩ := Frames.eq_of_calls hcalls
  have hcurrent := hm.current
  rw [hframes] at hnested hcurrent
  have hunpinned : ∀ g ∈ blocks ++ s :: outer.ofCalls, ¬w.shape.Pinned g := by
    intro g hg
    rw [← Frames.ofCalls_of_call (f := f)] at hg
    exact hnested.not_pinned hg
  have hscopes := hnested.nodup
  rw [Frames.scopes_of_call, List.append_cons] at hscopes
  obtain ⟨hown, -, hdisjoint⟩ := List.nodup_append.mp hscopes
  have hsplit : blocks ++ s :: l = (blocks ++ [s]) ++ l := List.append_cons ..
  have hmine : ∀ g ∈ blocks ++ [s], g ∈ blocks ++ s :: outer.ofCalls := by
    intro g hg
    rw [List.append_cons]
    exact List.mem_append_left _ hg
  refine ⟨blocks, s, outer, l, hframes, houter, Arena.outward_of_chain (by rwa [hm.shape]), ?_, ?_, ?_⟩
  · refine Arena.outward_of_chain ?_
    rw [hm.shape, hcurrent]
    exact hnested.chain_of_call hl
  · -- What the function closes over is pinned, and what was entered during the call is not.
    rw [hsplit]
    refine List.nodup_append.mpr ⟨hown, hnodup, fun g hg g' hg' heq => ?_⟩
    exact hunpinned g (hmine g hg) (heq ▸ hall g' hg')
  · rw [hsplit]
    intro g hg houter
    rcases List.mem_append.mp hg with hg | hg
    · exact hdisjoint g hg g (Frames.ofCalls_subset outer houter) rfl
    · refine hunpinned g ?_ (hall g hg)
      rw [List.append_cons]
      exact List.mem_append_right _ houter

theorem Machine.Fits.confined (hm : m.Fits w) (hcalls : w.calls = w.frames.calls)
    (hknown : Known settings requests m) : m.Confined settings requests w.frames where
  chain f fs h := by
    rw [hm.calls, hcalls] at h
    obtain ⟨blocks, s, outer, l, hframes, houter, hclosure, hcurrent, hnodup, hnot⟩ :=
      hm.chain_of_call h
    have hbound := hm.bound f s (by simp [hframes])
    exact ⟨blocks, s, outer, l, hframes, houter, hclosure, hcurrent, hbound,
      fun k => hcurrent.resolve hnodup, hnot⟩
  values v hv f hf := hm.function_confined hknown (hm.values v hv f hf).1
  calls f hf := hm.function_confined hknown (hm.functions f (hm.calls ▸ hf))

/-- **No call sees the variables of another one.**  This holds of the machine at every moment of a
session, and of the machine that is left when the node has been evaluated or executed; and it holds
of a function that this has as its value, or that is given back. -/
theorem calls_confined (level maxCalls patience : Nat) {requests : List Request} {M : Moment}
    (hM : Reached ⟨level, true, maxCalls, patience⟩ requests M) :
    let settings : Settings := ⟨level, true, maxCalls, patience⟩
    M.machine.Confined settings requests M.frames ∧
      (M.outcome settings).machine.Confined settings requests M.frames ∧
      ∀ f n, M.outcome settings = .done (.function f) n ∨
        M.outcome settings = .stopped (.returned (.function f)) n →
          f.Confined settings requests M.frames n := by
  intro settings
  have hreclaim : settings.reclaim = true := rfl
  have hfits : M.Fits False := hM.fits hreclaim False.elim
  have hknown : Known settings requests M.machine := hM.known hreclaim
  have hend : Known settings requests (M.outcome settings).machine := hknown.outcome hreclaim hM
  have hrelated := hfits.outcome hreclaim
  generalize M.outcome settings = outcome at hend hrelated
  have hframes {v : Layout} (hv : (M.layout False False).Le v) : v.frames = M.frames := hv.frames
  refine ⟨(hfits.machine False).confined rfl hknown, ?_, ?_⟩
  · obtain ⟨v, hv, hn⟩ := hrelated.fits
    have hcalls : v.calls = v.frames.calls := by
      rw [hv.calls, hframes hv]
      rfl
    have hconfined := hn.confined hcalls hend
    rwa [hframes hv] at hconfined
  · rintro f n (rfl | rfl)
    · obtain ⟨v, hv, hn, b, -, hf⟩ := hrelated.fits_of_done rfl
      have hconfined := hn.function_confined hend (hf f rfl).1
      rwa [hframes hv] at hconfined
    · cases hrelated with
      | @stopped v _ _ _ _ hv hn hvalue =>
        rcases hvalue with ⟨-, -, hnot⟩ | ⟨a, b, heq, -, -, -, hf⟩
        · exact absurd rfl (hnot _)
        · cases heq
          have hconfined := hn.2.function_confined hend (hf f rfl).1
          rwa [hframes hv] at hconfined

/-- In the body of a function that is called. -/
theorem calls_confined_in_body :
    let settings : Settings := ⟨0, true, 8, 8⟩
    let name : Mark := { (default : Mark) with lexeme := .text "f" }
    let statement : Node := .evaluate (.literal (.bool true))
    let declaration : Node := .function name [] [statement]
    let call : Node := .evaluate (.call (.reference name) default [])
    let requests := [Request.tree (.many [declaration, call])]
    ∃ M, Reached settings requests M ∧ M.node = statement ∧ M.machine.calls.length = 1 ∧
      M.machine.Confined settings requests M.frames := by
  intro settings name statement declaration call requests
  obtain ⟨m₁, hm₁⟩ : ∃ m₁, executeAll (executeUpTo settings 8) [declaration] .initial
      = .done () m₁ := ⟨_, rfl⟩
  have hcall : Reached settings requests ⟨8, true, call, [], m₁⟩ :=
    ⟨[], _, [], rfl, .statement (show _ = some ([declaration] ++ call :: []) from rfl) rfl hm₁⟩
  cases hm₁
  have hexpression := hcall.inwards (.expression rfl List.mem_cons_self (by simp) (by simp))
  have hbody := hexpression.inwards (.body rfl rfl rfl (by decide) rfl
    (show _ = [] ++ statement :: [] from rfl) rfl)
  exact ⟨_, hbody, rfl, rfl, (calls_confined 0 8 8 hbody).1⟩

end

end LoxLang
