/-
No scope leaks and none is lost.

When a run is over, the scopes that are left are the pinned ones: the global scope, and those
around which a function was declared outside all calls.

* `pinned_of_run`, `pinned_of_session` — what is pinned after one run, and after some;
* `no_scope_leaks` — expressions leave the scopes as they are, and only declarations outside calls
  make a scope stay.
-/
import LoxLang.Proofs.Machine.Pins

namespace LoxLang

/-! ### The scopes when a run is over -/

/-- A runtime error ends a list of statements in the same machine, whether it is caught or not. -/
theorem executeFrom_machine (execute : Node → Effect Value) (es : List Node) (v : Value)
    (m : Machine) :
    (executeFrom execute es v m).machine = (executeAll execute es m).machine := by
  induction es generalizing v m with
  | nil => rfl
  | cons e es ih =>
    rw [executeFrom]
    beta_reduce
    cases h : execute e m with
    | done v n =>
      rw [executeAll_of_done h]
      exact ih v n
    | stopped why n =>
      rw [executeAll_of_stopped h]
      cases why <;> rfl

theorem reportAll_writes (errors : List SyntaxError) : (reportAll errors).WritesOnly := by
  induction errors with
  | nil => exact .pure ()
  | cons e rest ih => exact .bind (.report _) fun _ => ih

theorem finishRun_writes (settings : Settings) (x : Value × Option RuntimeError) :
    (Simulation.finishRun settings x).WritesOnly := by
  obtain ⟨v, error⟩ := x
  cases error with
  | none => exact .bind (.trace _ _) fun _ => .pure _
  | some e =>
    exact .bind (.trace _ _) fun _ => .bind (.report _) fun _ => .bind (.trace _ _) fun _ => .pure _

theorem reportAll_done (errors : List SyntaxError) (m : Machine) :
    ∃ n, reportAll errors m = .done () n := by
  induction errors generalizing m with
  | nil => exact ⟨m, rfl⟩
  | cons e rest ih => exact ih _

namespace Request

variable {settings : Settings} {request : Request} {statements : List Node} {m m₀ : Machine}

theorem opening_done (settings : Settings) (request : Request) (statements : List Node)
    (m : Machine) : ∃ m₀, request.opening settings statements m = .done () m₀ ∧
      m₀.arena = m.arena ∧ m₀.nextId = m.nextId := by
  have htrace (n : Machine) (line : String) : ∃ k, Effect.trace settings.level line n = .done () k ∧
      k.arena = n.arena ∧ k.nextId = n.nextId :=
    ⟨_, rfl, Effect.WritesOnly.trace settings.level line n⟩
  cases request with
  | source text =>
    obtain ⟨n, hn⟩ := reportAll_done (Program.ofSource text).heard m
    have hwrites := reportAll_writes (Program.ofSource text).heard m
    obtain ⟨k, hk, hkn⟩ := htrace n ("run " ++ toString statements.length ++ " statement(s)")
    rw [hn] at hwrites
    exact ⟨k, (Effect.bind_of_done hn).trans hk, hkn.1.trans hwrites.1, hkn.2.trans hwrites.2⟩
  | tree node => exact htrace m _

theorem runProgram_of_ok {p : Program} (hok : p.ok) :
    runProgram settings p = reportAll p.heard >>= fun _ => LoxLang.run settings p.statements := by
  rw [runProgram, if_pos hok]

theorem runProgram_of_not_ok {p : Program} (hok : ¬p.ok) :
    runProgram settings p = reportAll p.heard >>= fun _ => pure ⟨p.errors, none, .nil⟩ := by
  rw [runProgram, if_neg hok]

theorem run_of_statements (h : request.statements? = some statements) :
    request.run settings = request.opening settings statements >>= fun _ =>
      executeFrom (executeUpTo settings settings.patience) statements .nil >>=
        Simulation.finishRun settings := by
  cases request with
  | source text =>
    obtain ⟨hok, heq⟩ := Option.ite_none_right_eq_some.mp h
    cases heq
    exact (runProgram_of_ok hok).trans (Effect.bind_assoc _ _ _).symm
  | tree node =>
    cases node with
    | many es =>
      cases h
      rfl
    | _ => cases h

/-- The scopes when a run is over are those when its statements are. -/
theorem end_of_statements (h : request.statements? = some statements)
    (opened : request.opening settings statements m = .done () m₀) :
    (request.run settings m).machine.arena
        = (executeAll (executeUpTo settings settings.patience) statements m₀).machine.arena ∧
      (request.run settings m).machine.nextId
        = (executeAll (executeUpTo settings settings.patience) statements m₀).machine.nextId := by
  have hmachine : (executeFrom (executeUpTo settings settings.patience) statements .nil m₀).machine
      = (executeAll (executeUpTo settings settings.patience) statements m₀).machine :=
    executeFrom_machine _ statements .nil m₀
  rw [run_of_statements h, Effect.bind_of_done opened, ← hmachine]
  exact Effect.WritesOnly.bind_left (finishRun_writes settings) m₀

/-- Where there are no statements to run, the scopes are as before. -/
theorem end_of_none (h : request.statements? = none) :
    (request.run settings m).machine.arena = m.arena := by
  cases request with
  | source text =>
    have hok : ¬(Program.ofSource text).ok = true := fun hok => by
      rw [statements?, if_pos hok] at h
      cases h
    have hrun : Request.run settings (.source text) = _ := runProgram_of_not_ok hok
    rw [hrun, bind_pure_machine]
    exact (reportAll_writes _ m).1
  | tree node =>
    cases node with
    | many es => cases h
    | _ => rfl

/-- The moments of a run are those in the course of its statements. -/
theorem Reaches.of_leads {M N : Moment} (hM : request.Reaches settings m M)
    (hMN : Relation.ReflTransGen (Leads settings) M N) : request.Reaches settings m N := by
  induction hMN with
  | refl => exact hM
  | tail _ hleads ih => exact .inwards ih hleads

/-- In a run that begins in this machine, a function is declared outside all calls that closes over
a scope. -/
def Pins (settings : Settings) (request : Request) (m : Machine) (h : Handle) : Prop :=
  ∃ D, request.Reaches settings m D ∧ D.Declares ∧ h ∈ D.frames.scopes ++ [Arena.globals]

end Request

section

variable {settings : Settings} (hreclaim : settings.reclaim = true) {request : Request}
  {requests : List Request} {m : Machine} {M : Moment} {h : Handle}
include hreclaim

/-- The machine at the end of a declaration in the course of a run grows to the one at the end of
the run. -/
theorem Request.Reaches.grows_to_end (hm : m.Fits (m.rest False))
    (hM : request.Reaches settings m M) {D : Moment}
    (hMD : Relation.ReflTransGen (Leads settings) M D) (hD : D.Declares) :
    (D.outcome settings).machine.GrowsTo (request.run settings m).machine := by
  induction hM with
  | @statement e before after m₀ m₁ statements opened executed =>
    have hM : request.Reaches settings m ⟨settings.patience, true, e, [], m₁⟩ :=
      .statement statements opened executed
    have hfits := hM.fits hreclaim False.elim hm
    obtain ⟨-, hgrows⟩ := grows_of_declared hreclaim hfits hMD hD
    have hrest := executeAll_cons_grows hreclaim hfits rfl after
    obtain ⟨harena, hid⟩ := Request.end_of_statements statements opened
    rw [executeAll_append executed] at harena hid
    refine (hgrows.trans hrest).trans ⟨fun h hh => ?_, hid.ge⟩
    rw [harena]
    exact hh
  | inwards _ hleads ih => exact ih (.head hleads hMD)

/-- What is pinned when a run is over was pinned before, or was pinned by a declaration. -/
theorem pinned_of_run (hm : m.Fits (m.rest False)) :
    (request.run settings m).machine.arena.shape.Pinned h ↔
      m.arena.shape.Pinned h ∨ request.Pins settings m h := by
  constructor
  · intro hpinned
    cases hstatements : request.statements? with
    | none =>
      rw [Request.end_of_none hstatements] at hpinned
      exact .inl hpinned
    | some statements =>
      obtain ⟨m₀, opened, harena, -⟩ := Request.opening_done settings request statements m
      rw [(Request.end_of_statements hstatements opened).1] at hpinned
      refine executeAll_induction (P := fun n => n.arena.shape.Pinned h →
        m.arena.shape.Pinned h ∨ request.Pins settings m h) statements ?_ ?_ hpinned
      · intro before e after m₁ hsplit hbefore hm₁ he
        subst hsplit
        have hM : request.Reaches settings m ⟨settings.patience, true, e, [], m₁⟩ :=
          .statement hstatements opened hbefore
        rcases pinned_of_outcome hreclaim (hM.fits hreclaim False.elim hm) rfl h he with h | h
        · exact hm₁ h
        · obtain ⟨D, hMD, hD⟩ := h
          exact .inr ⟨D, hM.of_leads hMD, hD⟩
      · intro hopened
        rw [harena] at hopened
        exact .inl hopened
  · rintro (hpinned | ⟨D, hMD, hD, hh⟩)
    · exact (run_fits hreclaim False.elim hm).persists.pinned hpinned
    · have hend : (D.outcome settings).machine.arena.shape.Pinned h :=
        (pinned_of_declared (hMD.fits hreclaim False.elim hm) hD).mpr (.inr hh)
      exact (hMD.grows_to_end hreclaim hm .refl hD).pinned h hend

end

/-! ### Sessions -/

section

variable {settings : Settings} {request : Request} {requests : List Request} {M D : Moment}
  {named : Prop} {h : Handle}

theorem leftBy_concat (settings : Settings) (requests : List Request) (request : Request)
    (m : Machine) : leftBy settings (requests ++ [request]) m
      = (request.run settings (leftBy settings requests m)).machine := by
  rw [leftBy, List.foldl_append]
  rfl

/-- A moment of a session is one of the runs before the last one, or of the last one. -/
theorem reached_concat_iff : Reached settings (requests ++ [request]) M ↔
    Reached settings requests M ∨
      request.Reaches settings (leftBy settings requests .initial) M := by
  constructor
  · rintro ⟨before, r, after, hsplit, hM⟩
    rcases List.eq_nil_or_concat after with rfl | ⟨after, last, rfl⟩
    · obtain ⟨rfl, hlast⟩ := List.append_inj' hsplit rfl
      obtain rfl : request = r := List.singleton_inj.mp hlast
      exact .inr hM
    · rw [List.concat_eq_append, ← List.cons_append, ← List.append_assoc] at hsplit
      obtain ⟨rfl, -⟩ := List.append_inj' hsplit rfl
      exact .inl ⟨before, r, after, rfl, hM⟩
  · rintro (⟨before, r, after, rfl, hM⟩ | hM)
    · exact ⟨before, r, after ++ [request], by simp, hM⟩
    · exact ⟨requests, request, [], rfl, hM⟩

/-- Between the runs of a session no scope is entered. -/
theorem rest_fits (hreclaim : settings.reclaim = true)
    (hrequests : named → ∀ r ∈ requests, r.NamesParameters) :
    (leftBy settings requests .initial).Fits ((leftBy settings requests .initial).rest named) :=
  leftBy_fits hreclaim hrequests (initial_fits named)

/-- What is pinned after some runs: the global scope, and where a function was declared outside all
calls, the current scope and those around it. -/
theorem pinned_of_session (hreclaim : settings.reclaim = true) :
    (leftBy settings requests .initial).arena.shape.Pinned h ↔
      h = Arena.globals ∨ ∃ D, Reached settings requests D ∧ D.Declares ∧ h ∈ D.frames.scopes := by
  have hmem (l : List Handle) : h ∈ l ++ [Arena.globals] ↔ h = Arena.globals ∨ h ∈ l := by
    rw [List.mem_append, List.mem_singleton, or_comm]
  induction requests using List.reverseRecOn with
  | nil =>
    constructor
    · rintro ⟨p, hp⟩
      have hp : (Arena.initial : Arena Key Value).shape h = some (p, true) := hp
      rw [Arena.shape_initial] at hp
      exact .inl (Option.ite_none_right_eq_some.mp hp).1
    · rintro (rfl | ⟨D, ⟨before, r, after, hsplit, -⟩, -⟩)
      · exact ⟨none, Arena.shape_initial _⟩
      · simp at hsplit
  | append_singleton requests request ih =>
    rw [leftBy_concat]
    refine (pinned_of_run hreclaim (rest_fits hreclaim False.elim)).trans ?_
    refine (or_congr_left ih).trans ?_
    constructor
    · rintro ((rfl | ⟨D, hD, hh⟩) | ⟨D, hD, hdeclares, hh⟩)
      · exact .inl rfl
      · exact .inr ⟨D, reached_concat_iff.mpr (.inl hD), hh⟩
      · exact ((hmem _).mp hh).imp_right fun hh =>
          ⟨D, reached_concat_iff.mpr (.inr hD), hdeclares, hh⟩
    · rintro (rfl | ⟨D, hD, hdeclares, hh⟩)
      · exact .inl (.inl rfl)
      · rcases reached_concat_iff.mp hD with hD | hD
        · exact .inl (.inr ⟨D, hD, hdeclares, hh⟩)
        · exact .inr ⟨D, hD, hdeclares, (hmem _).mpr (.inr hh)⟩

/-- Where all parameters are names, a scope of a machine is pinned or was entered and not left. -/
theorem Machine.Fits.isSome_iff {w : Layout} {m : Machine} (hm : m.Fits w) (hnamed : w.named) :
    (m.arena.shape h).isSome ↔ m.arena.shape.Pinned h ∨ h ∈ w.frames.scopes := by
  rw [hm.shape]
  constructor
  · intro hlive
    obtain ⟨⟨p, pinned⟩, hp⟩ := Option.isSome_iff_exists.mp hlive
    cases pinned with
    | false => exact .inr (hm.tight hnamed h p hp)
    | true => exact .inl ⟨p, hp⟩
  · rintro (⟨p, hp⟩ | hh)
    · rw [hp]
      rfl
    · obtain ⟨p, b, hp⟩ := hm.proper.nested.scope_of_mem hh
      rw [hp]
      rfl

/-- After some runs the scopes that are left are the pinned ones. -/
theorem live_iff_pinned (hreclaim : settings.reclaim = true)
    (hrequests : ∀ r ∈ requests, r.NamesParameters) :
    ((leftBy settings requests .initial).arena.shape h).isSome ↔
      (leftBy settings requests .initial).arena.shape.Pinned h := by
  rw [(rest_fits hreclaim fun _ => hrequests).isSome_iff trivial]
  exact or_iff_left List.not_mem_nil

/-- The scopes around a function that is declared outside all calls are the blocks that were
entered, and the global scope. -/
theorem Moment.Fits.outward_of_declared (hD : D.Fits named) (hdeclares : D.Declares) :
    D.machine.arena.Outward D.machine.current (D.frames.scopes ++ [Arena.globals]) := by
  have hm := hD.machine False
  refine Arena.outward_of_chain ?_
  rw [hm.shape, hm.current]
  exact hm.proper.chain_outside (hD.calls.symm.trans hdeclares.outside)

theorem Moment.Fits.block_iff (hD : D.Fits named) (hdeclares : D.Declares) :
    Frame.block h ∈ D.frames ↔ h ∈ D.frames.scopes := by
  have hblocks := Frames.eq_blocks_of_calls (hD.calls.symm.trans hdeclares.outside)
  constructor
  · intro hh
    exact List.mem_map.mpr ⟨_, hh, rfl⟩
  · intro hh
    rw [hblocks]
    exact List.mem_map_of_mem hh

/-- Evaluating an expression leaves all scopes as they are. -/
theorem shape_of_evaluated (hreclaim : settings.reclaim = true) (hM : M.Fits True) (n : Nat)
    {e : Node} (he : e.NamesParameters) :
    (evaluateUpTo settings n e M.machine).machine.arena.shape = M.machine.arena.shape :=
  (evaluateUpTo_fits hreclaim n (hM.machine True) fun _ => he).shape_eq (.inl trivial) trivial

/-- Where no function is declared outside all calls, there are as many scopes when a node has been
evaluated or executed as before. -/
theorem Reached.liveCount_of_outcome (hreclaim : settings.reclaim = true)
    (hrequests : ∀ r ∈ requests, r.NamesParameters) (hM : Reached settings requests M)
    (hdeclares : ∀ D, Relation.ReflTransGen (Leads settings) M D → ¬D.Declares) :
    (M.outcome settings).machine.arena.liveCount = M.machine.arena.liveCount := by
  have hfits : M.Fits True := hM.fits hreclaim fun _ => hrequests
  by_cases hexecuting : M.executing = true
  · have hpinned (h : Handle) : (M.outcome settings).machine.arena.shape.Pinned h ↔
        M.machine.arena.shape.Pinned h := by
      constructor
      · intro hh
        rcases pinned_of_outcome hreclaim (hM.fits hreclaim False.elim) hexecuting h hh with hh | hh
        · exact hh
        · obtain ⟨D, hMD, hD, -⟩ := hh
          exact absurd hD (hdeclares D hMD)
      · intro hh
        rw [Moment.outcome, if_pos hexecuting]
        exact (executeUpTo_fits hreclaim _ (hfits.machine False)
          ⟨hfits.node, False.elim⟩).persists.pinned hh
    obtain ⟨v, hv, hn⟩ := (executeUpTo_fits hreclaim M.bound (hfits.machine False)
      ⟨hfits.node, False.elim⟩).fits
    have houtcome : M.outcome settings = executeUpTo settings M.bound M.node M.machine :=
      if_pos hexecuting
    rw [← houtcome] at hn
    refine Arena.liveCount_congr fun g => Bool.eq_iff_iff.mpr ?_
    rw [hn.isSome_iff (hv.named ▸ trivial), (hfits.machine False).isSome_iff trivial, hpinned,
      hv.frames]
  · have hshape := shape_of_evaluated hreclaim hfits M.bound (hfits.node trivial)
    rw [Moment.outcome, if_neg hexecuting]
    exact Arena.liveCount_congr fun g => by rw [hshape]

/-- No scope leaks and none is lost, in any number of runs one after the other.

* Evaluating an expression at any moment leaves the scopes, what is around them and what is pinned
  as they were.
* When the runs are over, the scopes are those that are pinned: the global scope, and the blocks
  around a function that was declared while no call was under way.
* Hence where no function is declared while no call is under way, the number of scopes stays the
  same, when a node is evaluated or executed and over a whole run. -/
theorem no_scope_leaks (level maxCalls patience : Nat) {requests : List Request}
    (hrequests : ∀ r ∈ requests, r.NamesParameters) :
    let settings : Settings := ⟨level, true, maxCalls, patience⟩
    let after (requests : List Request) := (leftBy settings requests .initial).arena
    (∀ M, Reached settings requests M → ∀ n e, e.NamesParameters →
      (evaluateUpTo settings n e M.machine).machine.arena.shape = M.machine.arena.shape) ∧
    (∀ h, ((after requests).shape h).isSome ↔ (after requests).shape.Pinned h) ∧
    (∀ h, (after requests).shape.Pinned h ↔ h = Arena.globals ∨
      ∃ D l, Reached settings requests D ∧ D.Declares ∧
        D.machine.arena.Outward D.machine.current l ∧ h ∈ l ∧ Frame.block h ∈ D.frames) ∧
    (∀ M, Reached settings requests M →
      (∀ D, Relation.ReflTransGen (Leads settings) M D → ¬D.Declares) →
      (M.outcome settings).machine.arena.liveCount = M.machine.arena.liveCount) ∧
    (∀ before request rest, requests = before ++ request :: rest →
      (∀ D, request.Reaches settings (leftBy settings before .initial) D → ¬D.Declares) →
      (after (before ++ [request])).liveCount = (after before).liveCount) := by
  intro settings after
  have hreclaim : settings.reclaim = true := rfl
  have hfits {M : Moment} (hM : Reached settings requests M) : M.Fits True :=
    hM.fits hreclaim fun _ => hrequests
  refine ⟨?_, fun h => live_iff_pinned hreclaim hrequests, ?_, ?_, ?_⟩
  · intro M hM n e he
    exact shape_of_evaluated hreclaim (hfits hM) n he
  · intro h
    refine (pinned_of_session hreclaim).trans (or_congr_right ?_)
    constructor
    · rintro ⟨D, hD, hdeclares, hh⟩
      exact ⟨D, _, hD, hdeclares, (hfits hD).outward_of_declared hdeclares,
        List.mem_append_left _ hh, ((hfits hD).block_iff hdeclares).mpr hh⟩
    · rintro ⟨D, l, hD, hdeclares, -, -, hh⟩
      exact ⟨D, hD, hdeclares, ((hfits hD).block_iff hdeclares).mp hh⟩
  · intro M hM
    exact hM.liveCount_of_outcome hreclaim hrequests
  · intro before request rest hsplit hdeclares
    have hbefore : ∀ r ∈ before, r.NamesParameters := fun r hr => hrequests r (by simp [hsplit, hr])
    have hrun : ∀ r ∈ before ++ [request], r.NamesParameters := by
      intro r hr
      refine hrequests r ?_
      rw [hsplit]
      exact List.Sublist.subset (by simp) hr
    refine Arena.liveCount_congr fun g => Bool.eq_iff_iff.mpr ?_
    refine (live_iff_pinned hreclaim hrun).trans (Iff.trans ?_ (live_iff_pinned hreclaim hbefore).symm)
    rw [leftBy_concat]
    refine (pinned_of_run hreclaim (rest_fits hreclaim False.elim)).trans (or_iff_left ?_)
    rintro ⟨D, hD, hD', -⟩
    exact hdeclares D hD hD'

/-- Of two blocks, the one in which a function is declared stays. -/
theorem no_scope_leaks_of_blocks :
    let settings : Settings := ⟨0, true, 8, 8⟩
    let name : Mark := { (default : Mark) with lexeme := .text "f" }
    let requests := [Request.tree (.many [.block [.function name [name] []], .block []])]
    let arena := (leftBy settings requests .initial).arena
    arena.liveCount = 2 ∧ arena.shape.Pinned 1 ∧
      ∃ D l, Reached settings requests D ∧ D.Declares ∧
        D.machine.arena.Outward D.machine.current l ∧ 1 ∈ l ∧ Frame.block 1 ∈ D.frames := by
  intro settings name requests arena
  have hrequests : ∀ r ∈ requests, r.NamesParameters := by
    intro r hr
    obtain rfl := List.mem_singleton.mp hr
    intro m hm
    exact ⟨"f", by rw [List.mem_singleton.mp (show m ∈ [name] from hm)]⟩
  have hpinned : arena.shape.Pinned 1 := ⟨some Arena.globals, by decide +kernel⟩
  refine ⟨by decide +kernel, hpinned, ?_⟩
  exact (((no_scope_leaks 0 8 8 hrequests).2.2.1 1).mp hpinned).resolve_left (by decide)

end

end LoxLang
