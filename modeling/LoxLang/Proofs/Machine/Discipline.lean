/-
Machines use their arenas like stacks.

What a machine asks of its arena is allowed (`Arena.Allows`), as long as it fits a layout:

* the current scope and those that functions close over are live (`Machine.Fits.live_current`,
  `live_of_pinned`);
* no scope is inside one that is left, unless that one is pinned (`Machine.Fits.allows_release`).

A recorded effect obeys (`Recorded.Obeys`) if, begun in a machine that fits, it asks only what is
allowed, and its operations lead to the arena that it leaves.  For each node this follows from the
nodes inside it (`evaluateStep_obeys`, `executeStep_obeys`); between two of them the machine fits, as
it does so without a record.  So it is true of every node (`parts_upTo`) and of any number of runs
(`recordedSession_obeys`).  `walks_end_under_discipline` says what that is good for.
-/
import LoxLang.Proofs.Machine.Origins
import LoxLang.Proofs.Machine.Recording
import LoxLang.Proofs.Scope.Discipline

namespace LoxLang

/-! ### What a layout allows -/

/-- No scope is inside the innermost frame, unless that one is pinned. -/
theorem Shape.Proper.no_child {σ : Shape} {frame : Frame} {frames : Frames}
    (hσ : σ.Proper (frame :: frames)) (htight : σ.Tight (frame :: frames))
    (hunpinned : ¬σ.Pinned frame.scope) (g : Handle) (b : Bool) :
    σ g ≠ some (some frame.scope, b) := by
  intro hg
  have hcases : σ.Anchored frames g ∨ g = frame.scope := by
    cases b with
    | true => exact .inl (.inr ⟨_, hg⟩)
    | false => exact (List.mem_cons.mp (htight g _ hg)).symm.imp_left .inl
  rcases hcases with hanchored | rfl
  · -- Around what was entered before, or is pinned, there is again what was entered before.
    rcases hσ.leave.anchored_parent hanchored hg with hmem | hpinned
    · exact hσ.nested.not_mem hmem
    · exact hunpinned hpinned
  · obtain ⟨l, hl⟩ := hσ.exists_chain (.inl List.mem_cons_self)
    have hnodup := hl.nodup
    cases hl with
    | last scope =>
      rw [hg] at scope
      cases scope
    | step scope rest =>
      rw [hg] at scope
      cases scope
      exact (List.nodup_cons.mp hnodup).1 rest.head_mem

namespace Machine.Fits

variable {w : Layout} {m : Machine} {h : Handle}

theorem live_of_anchored (hm : m.Fits w) (hh : w.shape.Anchored w.frames h) : m.arena.Live h := by
  rw [Arena.live_iff, hm.shape]
  exact hm.proper.isSome_of_anchored hh

theorem live_of_pinned (hm : m.Fits w) (hh : w.shape.Pinned h) : m.arena.Live h :=
  hm.live_of_anchored (.inr hh)

theorem live_current (hm : m.Fits w) : m.arena.Live m.current :=
  hm.live_of_anchored (hm.current ▸ hm.proper.anchored_current)

theorem live_closure (hm : m.Fits w) : m.arena.Live m.closure := by
  obtain ⟨-, hclosure⟩ | ⟨-, hpinned⟩ := hm.closure_cases
  · rw [hclosure, ← hm.current]
    exact hm.live_current
  · exact hm.live_of_pinned hpinned

/-- The scope of the innermost frame may be given up. -/
theorem allows_release (hm : m.Fits w) (hnamed : w.named) {frame : Frame} {frames : Frames}
    (hframes : w.frames = frame :: frames) : m.arena.Allows (.release frame.scope) := by
  have hproper := hframes ▸ hm.proper
  have htight := hframes ▸ hm.tight hnamed
  refine ⟨hm.live_of_anchored (.inl (hframes ▸ List.mem_cons_self)), ?_⟩
  refine or_iff_not_imp_left.mpr fun hunpinned g t ht hparent => ?_
  rw [hm.shape] at hunpinned
  refine hproper.no_child htight hunpinned g t.pinned ?_
  rw [← hm.shape, Arena.shape_of_scope ht, hparent]

end Machine.Fits

/-! ### Records -/

/-- What has been asked of an arena is allowed, and has led to the arena that is left. -/
structure Record.Obeys {α : Type} (a : Arena Key Value) (r : Record α) : Prop where
  disciplined : a.Disciplined r.asked
  performed : a.perform r.asked = r.outcome.machine.arena

namespace Record.Obeys

variable {α β : Type} {m : Machine}

theorem pure (a : α) : ((pure a : Recorded α) m).Obeys m.arena := ⟨trivial, rfl⟩

theorem silent {x : Effect α} (hx : x.WritesOnly) : (Recorded.silent x m).Obeys m.arena :=
  ⟨trivial, (hx m).1.symm⟩

theorem ask {op : Arena.Operation Key Value} {read : Arena.Answer Key Value → α}
    (h : m.arena.Allows op) : (Recorded.ask op read m).Obeys m.arena := by
  have harena := Effect.onArena_arena (fun a => (a.apply op).map id (·.map read)) m
  exact ⟨⟨h, trivial⟩, harena.symm⟩

/-- The second effect begins where the first one has ended. -/
theorem bind {x : Recorded α} {f : α → Recorded β} (hx : (x m).Obeys m.arena)
    (hf : ∀ a n, x.erase m = .done a n → (f a n).Obeys n.arena) :
    ((x >>= f) m).Obeys m.arena := by
  simp only [Recorded.erase] at hf
  simp only [Bind.bind]
  rcases h : x m with ⟨asked, ⟨a, n⟩ | ⟨why, n⟩⟩
  · rw [h] at hx hf
    obtain ⟨hdisciplined, hperformed⟩ := hf a n rfl
    have harena : m.arena.perform asked = n.arena := hx.performed
    refine ⟨Arena.disciplined_append.mpr ⟨hx.disciplined, harena ▸ hdisciplined⟩, ?_⟩
    rw [Arena.perform_append, harena]
    exact hperformed
  · rw [h] at hx
    exact ⟨hx.disciplined, hx.performed⟩

theorem via {view : Effect α → Effect β} {x : Recorded α} (hx : (x m).Obeys m.arena)
    (hview : (view x.erase m).machine = (x.erase m).machine) :
    (Recorded.via view x m).Obeys m.arena :=
  ⟨hx.disciplined, hx.performed.trans (congrArg Machine.arena hview).symm⟩

theorem gets {g : Machine → β} {f : β → Recorded α} (hf : (f (g m) m).Obeys m.arena) :
    ((Recorded.silent (Effect.gets g) >>= f) m).Obeys m.arena := hf

theorem modify {g : Machine → Machine} {f : Unit → Recorded α} (hg : (g m).arena = m.arena)
    (hf : (f () (g m)).Obeys (g m).arena) :
    ((Recorded.silent (Effect.modify g) >>= f) m).Obeys m.arena := by
  rw [← hg]
  exact hf

theorem key {name : Mark} {f : Key → Recorded α} (hf : ∀ k, (f k m).Obeys m.arena) :
    ((Recorded.silent (Effect.key name) >>= f) m).Obeys m.arena := by
  obtain ⟨k, -, hk⟩ | hstop := Effect.key_cases name m
  · refine .bind ⟨trivial, by rw [Recorded.silent, hk]; rfl⟩ fun k' n hn => ?_
    rw [Recorded.erase_silent, hk] at hn
    cases hn
    exact hf k
  · refine .bind ⟨trivial, by rw [Recorded.silent, hstop]; rfl⟩ fun k' n hn => ?_
    rw [Recorded.erase_silent, hstop] at hn
    cases hn

/-- However the first effect ends, the second one begins there. -/
theorem ensuring {x : Recorded α} {last : Recorded Unit} (hx : (x m).Obeys m.arena)
    (hlast : (last (x.erase m).machine).Obeys (x.erase m).machine.arena) :
    (Recorded.ensuring x last m).Obeys m.arena := by
  have harena : m.arena.perform (x m).asked = (x.erase m).machine.arena := hx.performed
  refine ⟨Arena.disciplined_append.mpr ⟨hx.disciplined, harena ▸ hlast.disciplined⟩, ?_⟩
  show m.arena.perform ((x m).asked ++ _) = (Effect.ensuring x.erase last.erase m).machine.arena
  rw [Arena.perform_append, harena, ensuring_machine]
  exact hlast.performed

end Record.Obeys

namespace Recorded

variable {α β : Type} {w : Layout} {m : Machine}

/-- Begun in a machine that fits, with names for all parameters, it asks only what is allowed. -/
def Obeys (w : Layout) (x : Recorded α) : Prop :=
  ∀ u, w.Le u → u.named → ∀ m : Machine, m.Fits u → (x m).Obeys m.arena

/-- It asks only what is allowed wherever it begins. -/
def Idles (x : Recorded α) : Prop := ∀ m : Machine, (x m).Obeys m.arena

theorem Idles.pure (a : α) : (pure a : Recorded α).Idles := fun _ => .pure a

theorem Idles.silent {x : Effect α} (hx : x.WritesOnly) : (silent x).Idles := fun _ => .silent hx

theorem Idles.bind {x : Recorded α} {f : α → Recorded β} (hx : x.Idles) (hf : ∀ a, (f a).Idles) :
    (x >>= f).Idles :=
  fun m => .bind (hx m) fun a n _ => hf a n

namespace Obeys

theorem mono {v : Layout} (hwv : w.Le v) {x : Recorded α} (hx : x.Obeys w) : x.Obeys v :=
  fun u hu => hx u (hwv.trans hu)

theorem of_idles {x : Recorded α} (hx : x.Idles) : x.Obeys w := fun _ _ _ m _ => hx m

/-- What comes afterwards begins in a machine that fits, as the first effect leaves one. -/
theorem bind {stops : Layout → Stop → Stop → Prop} {results : Layout → α → α → Prop}
    {x : Recorded α} {f : α → Recorded β} (hx : x.Obeys w)
    (hfits : Effect.Related layout stops results w x.erase x.erase)
    (hf : ∀ u, w.Le u → ∀ a b, results u a b → (f a).Obeys u) : (x >>= f).Obeys w := by
  intro u hu hnamed m hm
  refine .bind (hx u hu hnamed m hm) fun a n h => ?_
  obtain ⟨v, hv, hn, b, hab⟩ := (hfits u hu m m ⟨rfl, hm⟩).fits_of_done h
  exact hf v (Layout.Le.trans hu hv) a b hab v (.refl v) (hv.named ▸ hnamed) n hn

/-- What idles may come last. -/
theorem then_idles {x : Recorded α} {f : α → Recorded β} (hx : x.Obeys w)
    (hf : ∀ a, (f a).Idles) : (x >>= f).Obeys w :=
  fun u hu hnamed m hm => .bind (hx u hu hnamed m hm) fun a n _ => hf a n

end Obeys

/-! ### Scopes and bindings -/

section

variable {settings : Settings} {scope : Handle} {name : Mark} {v : Value}

theorem lookUp_obeys (hcurrent : m.arena.Live m.current) : (lookUp name m).Obeys m.arena :=
  .key fun _ => .gets (.via (.ask hcurrent) (Effect.blaming_machine name _ m))

theorem assign_obeys (hcurrent : m.arena.Live m.current) : (assign name v m).Obeys m.arena :=
  .key fun _ => .gets (.via (.ask hcurrent) (Effect.blaming_machine name _ m))

theorem define_obeys (hscope : m.arena.Live scope) : (define scope name v m).Obeys m.arena :=
  .key fun _ => .ask hscope

theorem defineHere_obeys (hcurrent : m.arena.Live m.current) :
    (defineHere name v m).Obeys m.arena := .gets (define_obeys hcurrent)

/-- While the parameters are bound, their scope stays. -/
theorem bindParameters_obeys (hscope : m.arena.Live scope) (names : List Mark)
    (values : List Value) : (bindParameters scope names values m).Obeys m.arena := by
  induction names generalizing m values with
  | nil => exact .pure ()
  | cons name names ih =>
    cases values with
    | nil => exact .pure ()
    | cons v values =>
      refine .bind (define_obeys hscope) fun _ n hn => ih ?_ values
      have hshape := (define_rebinds (P := fun _ => True) scope name (v := v) trivial m).shape
      rw [← erase_define, hn] at hshape
      rw [Arena.live_iff] at hscope ⊢
      exact hshape ▸ hscope

/-- The scope that is closed over is there when it is pinned, and the current one afterwards. -/
theorem declareFunction_obeys {params : List Mark} {body : List Node}
    (hcalm : w.still → w.calls ≠ []) : (declareFunction settings name params body).Obeys w := by
  intro u hu _ m hm
  refine .gets (.bind (.ask hm.live_closure) fun _ n hn => ?_)
  have hcalm' : u.still → u.calls ≠ [] := by
    rw [hu.still, hu.calls]
    exact hcalm
  obtain ⟨_, n', -, hpin, hn', -⟩ := pinClosure_fits hcalm' hm
  rw [erase_pin, hpin] at hn
  cases hn
  refine .gets (.modify rfl (.bind (defineHere_obeys hn'.live_current) fun _ n _ => ?_))
  exact Idles.bind (.silent (.traceFrom 2 settings _)) (fun _ => .pure _) n

/-- The innermost scope may be left. -/
theorem leaveScope_obeys (hreclaim : settings.reclaim = true) (hm : m.Fits w) (hnamed : w.named)
    {frame : Frame} {frames : Frames} (hframes : w.frames = frame :: frames) (previous : Handle) :
    (leaveScope settings previous frame.scope m).Obeys m.arena := by
  refine .modify rfl ?_
  rw [if_pos hreclaim]
  exact .ask (hm.allows_release hnamed hframes)

end

/-! ### Nodes -/

/-- How the nodes inside another one are evaluated and executed: they ask only what is allowed, and
without their records they keep to the layout of the machine. -/
structure Parts (settings : Settings) (hreclaim : settings.reclaim = true)
    (evaluate execute : Node → Recorded Value) : Prop where
  evaluates : ∀ w e, w.Admits e → (evaluate e).Obeys w
  executes : ∀ w e, w.AdmitsStatement e → (execute e).Obeys w
  expressions : (layoutSimulation settings hreclaim).Expressions (fun e => (evaluate e).erase)
    fun e => (evaluate e).erase
  statements : (layoutSimulation settings hreclaim).Statements (fun e => (execute e).erase)
    fun e => (execute e).erase

section

variable {settings : Settings} {hreclaim : settings.reclaim = true}
  {evaluate execute : Node → Recorded Value}

/-- An operand, and what comes after it. -/
theorem Obeys.operand {f : Value → Recorded α} {e : Node}
    (hparts : Parts settings hreclaim evaluate execute) (he : w.Admits e)
    (hf : ∀ u, w.Le u → ∀ v, (f v).Obeys u) : (evaluate e >>= f).Obeys w :=
  .bind (hparts.evaluates w e he) (hparts.expressions w e he) fun u hu v _ _ => hf u hu v

/-- A statement, and what comes after it. -/
theorem Obeys.statement {f : Value → Recorded α} {e : Node}
    (hparts : Parts settings hreclaim evaluate execute) (he : w.AdmitsStatement e)
    (hf : ∀ u, w.Le u → ∀ v, (f v).Obeys u) : (execute e >>= f).Obeys w :=
  .bind (hparts.executes w e he) (hparts.statements w e he) fun u hu v _ _ => hf u hu v

theorem Obeys.traceFrom {f : Unit → Recorded α} {least : Nat} {line : String}
    (hf : ∀ u, w.Le u → (f ()).Obeys u) :
    (silent (LoxLang.traceFrom least settings line) >>= f).Obeys w :=
  .bind (.of_idles (.silent (.traceFrom least settings line))) (traceFrom_fits least settings line)
    fun u hu _ _ _ => hf u hu

theorem executeAll_obeys (hparts : Parts settings hreclaim evaluate execute) (es : List Node)
    (hes : ∀ e ∈ es, w.AdmitsStatement e) : (executeAll execute es).Obeys w := by
  induction es generalizing w with
  | nil => exact .of_idles (.pure ())
  | cons e rest ih =>
    obtain ⟨he, hrest⟩ := List.forall_mem_cons.mp hes
    exact .statement hparts he fun u hu _ => ih fun f hf => (hrest f hf).mono hu

theorem executeAll_keeps (hparts : Parts settings hreclaim evaluate execute) (es : List Node)
    (hes : ∀ e ∈ es, w.AdmitsStatement e) :
    Effect.Related layout layout.Leaving layout.Anything w (executeAll execute es).erase
      (executeAll execute es).erase := by
  rw [erase_executeAll]
  exact executeAll_related fun e he u hu => hparts.statements u e ((hes e he).mono hu)

/-- Statements in a scope that has just been entered, and that is innermost again at their end. -/
theorem executeIn_obeys (hparts : Parts settings hreclaim evaluate execute) (frame : Frame)
    {p : Handle} {statements : List Node} (hnamed : w.named)
    (hm : ({ m with current := frame.scope } : Machine).Fits (w.enter frame p))
    (hstatements : ∀ e ∈ statements, (w.enter frame p).AdmitsStatement e) :
    (executeIn settings execute statements frame.scope m).Obeys m.arena := by
  have hobeys := executeAll_obeys hparts statements hstatements
  refine .gets (.ensuring (.modify rfl (hobeys _ (.refl _) hnamed _ hm)) ?_)
  have hkeeps := executeAll_keeps hparts statements hstatements
  obtain ⟨u, hu, hn⟩ := (hkeeps _ (.refl _) _ _ ⟨rfl, hm⟩).fits
  exact leaveScope_obeys hreclaim hn (hu.named ▸ hnamed) hu.frames _

theorem block_obeys (hparts : Parts settings hreclaim evaluate execute) {statements : List Node}
    (hblock : w.AdmitsStatement (.block statements)) (rounds : Nat) :
    (executeStep settings evaluate execute rounds (.block statements)).Obeys w := by
  intro u hu hnamed m hm
  refine .gets (.bind (.ask hm.live_current) fun s n hn => ?_)
  rw [erase_push, Effect.pushScope_apply] at hn
  cases hn
  obtain ⟨s, rfl, -, henter⟩ := hm.enterBlock
  have hstatements (e : Node) (he : e ∈ statements) : u.AdmitsStatement e :=
    (hblock.mono hu).branch he
  have hinner := executeIn_obeys hparts (.block _)
    (m := { m with arena := (m.arena.push (some m.current)).1 }) hnamed henter hstatements
  exact .bind hinner fun _ _ _ => .pure _

/-! ### Calls -/

theorem openCall_obeys {f : Function} (hm : m.Fits w) (hf : w.shape.Pinned f.closure)
    (arguments : List Value) : (openCall f arguments m).Obeys m.arena := by
  refine .bind (.ask (hm.live_of_pinned hf)) fun s n hn => ?_
  rw [erase_push, Effect.pushScope_apply] at hn
  cases hn
  have hlive : (m.arena.push (some f.closure)).1.Live (m.arena.push (some f.closure)).2 :=
    ⟨_, (Arena.scope_push hm.tidy _ _).trans (if_pos rfl)⟩
  exact .bind (bindParameters_obeys hlive f.params arguments) fun _ _ _ => .modify rfl (.pure _)

/-- The call of a function: its scope is innermost while its body is executed. -/
theorem runBody_obeys (hparts : Parts settings hreclaim evaluate execute) {f : Function}
    {arguments : List Value} (hm : m.Fits w) (hnamed : w.named) (hf : (Value.function f).Fits w)
    (harguments : ∀ v ∈ arguments, v.Fits w) (hlength : arguments.length = f.arity) :
    ((openCall f arguments >>= closeCall settings execute f) m).Obeys m.arena := by
  obtain ⟨hpinned, hnames⟩ := hf f rfl
  refine .bind (openCall_obeys hm hpinned arguments) fun s n hn => ?_
  rw [erase_openCall] at hn
  obtain ⟨s, n', hopen, -, -, henter⟩ | ⟨why, n', -, hopen, -⟩ :=
    openCall_fits hm hf harguments hlength
  all_goals
    rw [hopen] at hn
    cases hn
  -- A call is under way, so that the statements of the body may declare functions.
  have hbody (e : Node) (he : e ∈ f.body) :
      (Layout.enter { w with calls := f :: w.calls } (.call f s) f.closure).AdmitsStatement e :=
    ⟨fun _ => (hnames hnamed).body e he, fun _ => .inl (List.cons_ne_nil f w.calls)⟩
  have hinner := executeIn_obeys hparts (.call f s) (w := { w with calls := f :: w.calls }) hnamed
    henter hbody
  exact .ensuring (.via hinner (catchReturned_machine _ _)) (.silent fun _ => ⟨rfl, rfl⟩)

theorem call_obeys (hparts : Parts settings hreclaim evaluate execute) {callee : Value}
    {arguments : List Value} (hcallee : callee.Fits w) (harguments : ∀ v ∈ arguments, v.Fits w)
    (paren : Mark) : (call settings execute callee arguments paren).Obeys w := by
  have fail (fault : RuntimeFault) : (silent (Effect.fail paren fault) : Recorded Value).Idles :=
    .silent (.stop _)
  cases callee with
  | function f =>
    rw [call]
    split
    · exact .of_idles (fail _)
    · rename_i hcount
      refine .traceFrom fun u hu => ?_
      intro v hv hnamed m hm
      refine .gets ?_
      split
      · exact fail _ m
      · exact runBody_obeys hparts hm hnamed (hcallee.mono (hu.trans hv))
          (fun a ha => (harguments a ha).mono (hu.trans hv)) (not_not.mp hcount)
  | _ => exact .of_idles (fail _)

/-! ### Expressions -/

theorem evaluateAll_obeys (hparts : Parts settings hreclaim evaluate execute) (es : List Node)
    (hes : ∀ e ∈ es, w.Admits e) : (evaluateAll evaluate es).Obeys w := by
  induction es generalizing w with
  | nil => exact .of_idles (.pure [])
  | cons e rest ih =>
    obtain ⟨he, hrest⟩ := List.forall_mem_cons.mp hes
    refine .operand hparts he fun u hu v => ?_
    exact (ih fun f hf => (hrest f hf).mono hu).then_idles fun _ => .pure _

theorem evaluateAll_keeps (hparts : Parts settings hreclaim evaluate execute) (es : List Node)
    (hes : ∀ e ∈ es, w.Admits e) :
    Effect.Related layout layout.Halting (fun u => List.Forall₂ (layout.values u)) w
      (evaluateAll evaluate es).erase (evaluateAll evaluate es).erase := by
  rw [erase_evaluateAll]
  exact evaluateAll_related fun e he u hu => hparts.expressions u e ((hes e he).mono hu)

/-- An expression obeys, given that the nodes inside it do. -/
theorem evaluateStep_obeys (hparts : Parts settings hreclaim evaluate execute) (node : Node)
    (hnode : w.Admits node) : (evaluateStep settings evaluate execute node).Obeys w := by
  have operand {e : Node} (he : e ∈ node.operands) {u : Layout} (hu : w.Le u) : u.Admits e :=
    Layout.Admits.mono hu fun hnamed => (hnode hnamed).operand he
  cases node with
  | literal j => exact .of_idles (.pure _)
  | grouping e => exact hparts.evaluates w e (operand (by simp [Node.operands]) (.refl w))
  | reference name => exact fun _ _ _ m hm => lookUp_obeys hm.live_current
  | assign name e =>
    refine .operand hparts (operand (by simp [Node.operands]) (.refl w)) fun u hu v => ?_
    have hassign : (assign name v).Obeys u := fun _ _ _ m hm => assign_obeys hm.live_current
    exact hassign.then_idles fun _ => .pure v
  | unary op e =>
    have he := operand (e := e) (by simp [Node.operands]) (.refl w)
    exact .operand hparts he fun _ _ v => .of_idles (.silent (.unaryValue op v))
  | logical left op right =>
    refine .operand hparts (operand (by simp [Node.operands]) (.refl w)) fun u hu v => ?_
    split
    · exact .of_idles (.pure v)
    · exact hparts.evaluates u right (operand (by simp [Node.operands]) hu)
  | binary left op right =>
    refine .operand hparts (operand (by simp [Node.operands]) (.refl w)) fun u hu a => ?_
    refine .operand hparts (operand (by simp [Node.operands]) hu) fun _ _ b => ?_
    exact .of_idles (.silent (.binaryValue op a b))
  | call callee paren arguments =>
    have hcallee := operand (e := callee) (by simp [Node.operands]) (.refl w)
    refine .bind (hparts.evaluates w _ hcallee) (hparts.expressions w _ hcallee) ?_
    rintro u hu f _ ⟨rfl, hf⟩
    have harguments (e : Node) (he : e ∈ arguments) : u.Admits e :=
      operand (by simp [Node.operands, he]) hu
    refine .bind (evaluateAll_obeys hparts arguments harguments)
      (evaluateAll_keeps hparts arguments harguments) fun v hv vs vs' hvs => ?_
    refine call_obeys hparts (hf.mono hv) (fun a ha => ?_) paren
    obtain ⟨hfits, -⟩ := (List.forall₂_and_left _ _).mp (hvs.imp fun _ _ => And.symm)
    exact hfits a ha
  | _ => exact .of_idles (.silent (.stop _))

/-! ### Statements -/

/-- A loop obeys, given that its condition and its body do, round after round. -/
theorem whileTrue_obeys {condition : Recorded Bool} {body : Recorded Unit}
    (hcondition : condition.Obeys w) (hbody : body.Obeys w)
    (hcondition' : Effect.Related layout layout.Leaving layout.Anything w condition.erase
      condition.erase)
    (hbody' : Effect.Related layout layout.Leaving layout.Anything w body.erase body.erase)
    (n : Nat) : (whileTrue condition body n).Obeys w := by
  induction n generalizing w with
  | zero => exact .of_idles (.silent (.stop _))
  | succ n ih =>
    refine .bind hcondition hcondition' fun u hu holds _ _ => ?_
    split
    · refine .bind (hbody.mono hu) (hbody'.mono hu) fun v hv _ _ _ => ?_
      have huv := hu.trans hv
      exact ih (hcondition.mono huv) (hbody.mono huv) (hcondition'.mono huv) (hbody'.mono huv)
    · exact .of_idles (.pure ())

/-- A part that may be left out. -/
theorem valueOf_obeys {visit : Node → Recorded Value} {e : Node}
    (he : e.isMissing = false → (visit e).Obeys w) : (valueOf visit e).Obeys w := by
  rw [valueOf]
  split
  · exact .of_idles (.pure Value.nil)
  · exact he (Bool.eq_false_iff.mpr ‹_›)

theorem initializer_keeps (hparts : Parts settings hreclaim evaluate execute) {node e : Node}
    (hnode : w.AdmitsStatement node) (he : e.ifPresent ⊆ node.operands) :
    Effect.Related layout layout.Leaving layout.values w (valueOf evaluate e).erase
      (valueOf evaluate e).erase := by
  rw [erase_valueOf]
  exact Simulation.initializer_related hnode he hparts.expressions

/-- A statement obeys, given that the nodes inside it do. -/
theorem executeStep_obeys (hparts : Parts settings hreclaim evaluate execute) (rounds : Nat)
    (node : Node) (hnode : w.AdmitsStatement node) :
    (executeStep settings evaluate execute rounds node).Obeys w := by
  have operand {e : Node} (he : e ∈ node.operands) {u : Layout} (hu : w.Le u) : u.Admits e :=
    Layout.Admits.mono hu fun hnamed => (hnode.1 hnamed).operand he
  have branch {e : Node} (he : e ∈ node.branches) {u : Layout} (hu : w.Le u) :
      u.AdmitsStatement e := (hnode.mono hu).branch he
  have initializer {e : Node} (he : e.ifPresent ⊆ node.operands) : (valueOf evaluate e).Obeys w :=
    valueOf_obeys fun hpresent =>
      hparts.evaluates w e (operand (he (Node.mem_ifPresent hpresent)) (.refl w))
  cases node with
  | evaluate e => exact hparts.evaluates w e (operand (by simp [Node.operands]) (.refl w))
  | print e =>
    refine .operand hparts (operand (by simp [Node.operands]) (.refl w)) fun _ _ v => ?_
    exact .of_idles (.bind (.silent (.print _)) fun _ => .pure _)
  | declare name e =>
    have hvalue : (valueOf evaluate e).Obeys w := initializer (by simp [Node.operands])
    refine .bind hvalue (initializer_keeps hparts hnode (by simp [Node.operands])) ?_
    intro u hu v _ _
    have hdefine : (defineHere name v).Obeys u := fun _ _ _ m hm =>
      defineHere_obeys hm.live_current
    exact hdefine.then_idles fun _ => .bind (.silent (.traceFrom 2 settings _)) fun _ => .pure _
  | block statements => exact block_obeys hparts hnode rounds
  | branch condition thenBranch elseBranch =>
    refine .operand hparts (operand (by simp [Node.operands]) (.refl w)) fun u hu v => ?_
    refine .traceFrom fun u' hu' => Obeys.then_idles ?_ fun _ => .pure _
    have hle := hu.trans hu'
    split
    · exact hparts.executes u' _ (branch (by simp [Node.branches]) hle)
    · refine valueOf_obeys fun he => hparts.executes u' _ (branch ?_ hle)
      simp [Node.branches, Node.mem_ifPresent he]
  | loop condition body =>
    have hcondition := operand (e := condition) (by simp [Node.operands]) (.refl w)
    have hbody := branch (e := body) (by simp [Node.branches]) (.refl w)
    refine Obeys.then_idles (whileTrue_obeys ?_ ?_ ?_ ?_ rounds)
      fun _ => .bind (.silent (.traceFrom 3 settings _)) fun _ => .pure _
    · exact .operand hparts hcondition fun _ _ _ => .of_idles (.pure _)
    · exact .statement hparts hbody fun _ _ _ => .of_idles (.pure _)
    · rw [erase_map]
      exact (hparts.expressions w _ hcondition).leaving.map fun _ _ _ _ => trivial
    · rw [erase_bind]
      exact (hparts.statements w _ hbody).anything.seq fun _ _ _ _ => .pure fun _ _ => trivial
  | function name params body =>
    exact declareFunction_obeys fun hstill =>
      (hnode.2 hstill).resolve_right fun hsimple => hsimple.2 _ _ _ rfl
  | giveBack keyword e =>
    intro u hu hnamed m hm
    refine .gets ?_
    split
    · exact .silent (.stop _)
    · have hvalue : (valueOf evaluate e).Obeys w := initializer (by simp [Node.operands])
      exact hvalue.then_idles (fun _ => .silent (.stop _)) u hu hnamed m hm
  | _ => exact .of_idles (.silent (.stop _))

end

/-! ### Whole runs -/

section

variable {settings : Settings} (hreclaim : settings.reclaim = true)
include hreclaim

/-- Every node obeys, whatever the bound. -/
theorem parts_upTo (n : Nat) :
    Parts settings hreclaim (evaluateUpTo settings n) (executeUpTo settings n) where
  expressions := by
    simp only [erase_evaluateUpTo]
    exact (layoutSimulation settings hreclaim).evaluateUpTo n
  statements := by
    simp only [erase_executeUpTo]
    exact (layoutSimulation settings hreclaim).executeUpTo n
  evaluates w e he := by
    cases n with
    | zero => exact .of_idles (.silent (.stop _))
    | succ n => exact evaluateStep_obeys (parts_upTo n) e he
  executes w e he := by
    cases n with
    | zero => exact .of_idles (.silent (.stop _))
    | succ n => exact executeStep_obeys (parts_upTo n) n e he

omit hreclaim in
theorem attempt_machine (x : Effect α) (m : Machine) :
    (Effect.attempt x m).machine = (x m).machine := by
  rw [Effect.attempt]
  rcases x m with ⟨_, n⟩ | ⟨why, n⟩
  · rfl
  · cases why <;> rfl

/-- After a runtime error no more statements are executed, and after a value the machine fits. -/
theorem executeFrom_obeys {evaluate execute : Node → Recorded Value}
    (hparts : Parts settings hreclaim evaluate execute) (es : List Node)
    (hes : ∀ e ∈ es, w.AdmitsStatement e) (last : Value) :
    (executeFrom execute es last).Obeys w := by
  induction es generalizing w last with
  | nil => exact .of_idles (.pure _)
  | cons e rest ih =>
    obtain ⟨he, hrest⟩ := List.forall_mem_cons.mp hes
    intro u hu hnamed m hm
    have hobeys := hparts.executes w e he u hu hnamed m hm
    refine .bind (.via hobeys (attempt_machine _ m)) fun result n hn => ?_
    obtain ⟨v, hv, hfits⟩ := (hparts.statements w e he u hu m m ⟨rfl, hm⟩).fits
    have hmachine : n = ((execute e).erase m).machine :=
      (congrArg Outcome.machine hn).symm.trans (attempt_machine (execute e).erase m)
    rw [← hmachine] at hfits
    cases result with
    | error error => exact .pure _
    | ok value =>
      have hle := Layout.Le.trans hu hv
      exact ih (fun f hf => (hrest f hf).mono hle) value v (.refl v) (hv.named ▸ hnamed) n hfits

theorem run_obeys (statements : List Node) (hstatements : ∀ e ∈ statements, w.AdmitsStatement e) :
    (run settings statements).Obeys w := by
  refine .bind (.of_idles (.silent (.trace settings.level _)))
    ((layoutSimulation settings hreclaim).trace_related w _) fun u hu _ _ _ => ?_
  have hadmits (e : Node) (he : e ∈ statements) : u.AdmitsStatement e := (hstatements e he).mono hu
  exact (executeFrom_obeys hreclaim (parts_upTo hreclaim _) statements hadmits .nil).then_idles
    fun x => .silent (finishRun_writes settings x)

end

end Recorded

section

variable {settings : Settings} (hreclaim : settings.reclaim = true) {w : Layout}
include hreclaim

theorem Request.recorded_obeys (request : Request)
    (hrequest : (layoutSimulation settings hreclaim).Admits w request) :
    (request.recorded settings).Obeys w := by
  cases request with
  | source text =>
    refine .bind (.of_idles (.silent (reportAll_writes _)))
      ((layoutSimulation settings hreclaim).reportAll_related w _) fun u hu _ _ _ => ?_
    split
    · rename_i hok
      exact Recorded.run_obeys hreclaim _ fun e he => (hrequest hok e he).mono hu
    · exact .of_idles (.pure _)
  | tree node =>
    cases node with
    | many es => exact Recorded.run_obeys hreclaim es hrequest
    | _ => exact .of_idles (.silent (.stop _))

/-- What a machine asks for in a whole session is allowed, and leaves the arena of the session. -/
theorem recordedSession_obeys {m : Machine} (hm : m.Fits (m.rest True)) (requests : List Request)
    (hrequests : ∀ r ∈ requests, r.NamesParameters) :
    m.arena.Disciplined (recordedSession settings requests m).1 ∧
      m.arena.perform (recordedSession settings requests m).1
        = (leftBy settings requests m).arena := by
  induction requests generalizing m with
  | nil => exact ⟨trivial, rfl⟩
  | cons request rest ih =>
    have houtcome : (request.recorded settings m).outcome = request.run settings m :=
      congrFun (request.erase_recorded settings) m
    obtain ⟨hrequest, hrest⟩ := List.forall_mem_cons.mp hrequests
    have hrecord := request.recorded_obeys hreclaim
      (admits_of_namesParameters hreclaim (fun _ => hrequest) m) _ (.refl _) trivial m hm
    have hperformed := hrecord.performed
    rw [houtcome] at hperformed
    -- The next request begins in the machine that is left outside all runs.
    have hfits : (leftBy settings [request] m).Fits ((leftBy settings [request] m).rest True) :=
      leftBy_fits hreclaim (fun _ => List.forall_mem_singleton.mpr hrequest) hm
    obtain ⟨hdisciplined, hleft⟩ := ih hfits hrest
    rw [recordedSession, houtcome]
    refine ⟨Arena.disciplined_append.mpr ⟨hrecord.disciplined, ?_⟩, ?_⟩
    · rwa [hperformed]
    · rw [Arena.perform_append, hperformed]
      exact hleft

end

/-- Where scopes are given up only when none is inside them, all walks from scope to scope end; and
that is how machines use their arenas.

* After a disciplined sequence of operations there are finitely many scopes from each live one
  outwards, all of them live and different.  Around a pinned scope they are pinned, and pinning a
  scope pins them all and changes nothing else.  Looking a name up, or binding it anew, is refused
  only where none of them binds it.
* What a machine asks of its arena in some runs, one after the other and however they end, is a
  disciplined sequence, and it leads to the arena that they leave. -/
theorem walks_end_under_discipline {κ α : Type} [DecidableEq κ] :
    (∀ ops : List (Arena.Operation κ α), (Arena.initial : Arena κ α).Disciplined ops →
      let a := Arena.after ops
      ∀ h, a.Live h →
        (∃ l, a.Outward h l ∧ l.Nodup ∧ (∀ g ∈ l, a.Live g) ∧
          (a.shape.Pinned h → ∀ g ∈ l, a.shape.Pinned g) ∧
          ∃ b, a.pin h = (b, .ok ()) ∧ Arena.Pinned l a b ∧ ∀ g ∈ l, b.shape.Pinned g) ∧
        ∀ k, (∃ r, a.resolve h k = .ok r) ∧
          ((∃ v, a.get h k = .ok v) ∨ a.get h k = .error .unbound) ∧
          ∀ v, (a.assign h k v).2 = .ok () ∨ (a.assign h k v).2 = .error .unbound) ∧
    ∀ settings : Settings, settings.reclaim = true → ∀ requests : List Request,
      (∀ r ∈ requests, r.NamesParameters) →
        (recordedSession settings requests .initial).2 = session settings requests .initial ∧
        (Arena.initial : Arena Key Value).Disciplined
          (recordedSession settings requests .initial).1 ∧
        Arena.after (recordedSession settings requests .initial).1
          = (leftBy settings requests .initial).arena := by
  constructor
  · intro ops hops a h hh
    have ha : a.Founded := Arena.founded_of_disciplined hops
    exact ⟨ha.outward hh, ha.walks hh⟩
  · intro settings hreclaim requests hrequests
    obtain ⟨hdisciplined, hleft⟩ :=
      recordedSession_obeys hreclaim (initial_fits True) requests hrequests
    exact ⟨recordedSession_outcomes settings requests .initial, hdisciplined, hleft⟩

/-- Where slots have been used again, a scope may be inside one with a higher handle; and a machine
that executes two blocks asks for six operations. -/
theorem walks_end_under_discipline_of_reuse :
    let ops : List (Arena.Operation Bool Nat) := [.push (some Arena.globals),
      .push (some Arena.globals), .release 1, .release 2, .push (some Arena.globals),
      .push (some 2)]
    let name : Mark := { (default : Mark) with lexeme := .text "f" }
    let settings : Settings := ⟨0, true, 8, 8⟩
    let requests := [Request.tree (.many [.block [.function name [name] []], .block []])]
    let asked := (recordedSession settings requests .initial).1
    (∃ l, (Arena.after ops).Outward 1 l ∧ 2 ∈ l) ∧ asked.length = 6 ∧
      (Arena.initial : Arena Key Value).Disciplined asked ∧
      Arena.after asked = (leftBy settings requests .initial).arena := by
  intro ops name settings requests asked
  have hops : (Arena.initial : Arena Bool Nat).Disciplined ops := by decide +kernel
  have hscope : (Arena.after ops).scope 1 = .ok ⟨some 2, [], false⟩ := by rfl
  have hrequests : ∀ r ∈ requests, r.NamesParameters := by
    intro r hr
    obtain rfl := List.mem_singleton.mp hr
    intro m hm
    exact ⟨"f", by rw [List.mem_singleton.mp (show m ∈ [name] from hm)]⟩
  obtain ⟨l, hl, -⟩ := (walks_end_under_discipline.1 ops hops 1 ⟨_, hscope⟩).1
  refine ⟨⟨l, hl, hl.parent_mem hl.chain.head_mem hscope rfl⟩, by decide +kernel, ?_⟩
  exact ((@walks_end_under_discipline Bool Nat _).2 settings rfl requests hrequests).2

end LoxLang
