/-
Tracing changes nothing but the trace.

A program is run twice, at two trace levels.  All effects but `trace` have nothing to do with the
trace (`Effect.Traceless`), and a line that is traced at one level is traced at every higher one
(`traceFrom_apply`).  So the two machines stay the same but for their traces, and what is traced at
the lower level is a part, in the same order, of what is traced at the higher one
(`tracing_changes_nothing`).
-/
import LoxLang.Proofs.Machine.Session

namespace LoxLang

/-! ### Effects that have nothing to do with the trace -/

/-- The same machine with another trace. -/
def Machine.retraced (m : Machine) (lines : Array String) : Machine := { m with traced := lines }

/-- The effect neither looks at the trace nor adds to it, and it gives nothing back to a call. -/
def Effect.Traceless {α : Type} (x : Effect α) : Prop :=
  ∀ m : Machine, ∃ n : Machine, n.traceOpen = m.traceOpen ∧
    ((∃ a, ∀ lines, x (m.retraced lines) = .done a (n.retraced lines)) ∨
      ∃ why, (∀ lines, x (m.retraced lines) = .stopped why (n.retraced lines)) ∧
        ∀ v, why ≠ .returned v)

namespace Effect.Traceless

variable {α β : Type}

theorem pure (a : α) : Traceless (Pure.pure a : Effect α) :=
  fun m => ⟨m, rfl, .inl ⟨a, fun _ => rfl⟩⟩

theorem gets {f : Machine → α} (hf : ∀ m lines, f (Machine.retraced m lines) = f m) :
    Traceless (Effect.gets f) := by
  intro m
  refine ⟨m, rfl, .inl ⟨f m, fun lines => ?_⟩⟩
  rw [← hf m lines]
  rfl

theorem modify {f : Machine → Machine}
    (hf : ∀ m lines, f (Machine.retraced m lines) = (f m).retraced lines)
    (hopen : ∀ m, (f m).traceOpen = m.traceOpen) : Traceless (Effect.modify f) :=
  fun m => ⟨f m, hopen m, .inl ⟨(), fun lines => congrArg (Outcome.done ()) (hf m lines)⟩⟩

theorem bind {x : Effect α} {f : α → Effect β} (hx : Traceless x) (hf : ∀ a, Traceless (f a)) :
    Traceless (x >>= f) := by
  intro m
  obtain ⟨n, hn, ⟨a, h⟩ | ⟨why, h, hwhy⟩⟩ := hx m
  · obtain ⟨k, hk, hend⟩ := hf a n
    refine ⟨k, hk.trans hn, ?_⟩
    simpa only [bind_of_done (h _)] using hend
  · exact ⟨n, hn, .inr ⟨why, fun lines => bind_of_stopped (h lines), hwhy⟩⟩

/-- Whether an operation on scopes is refused depends on the arena only. -/
theorem onArena (f : Arena Key Value → Arena Key Value × Except Refusal α) :
    Traceless (Effect.onArena f) := by
  intro m
  rcases hf : f m.arena with ⟨arena, r | a⟩
  · refine ⟨{ m with arena := arena }, rfl, .inr ⟨.broken (.scopes r), fun lines => ?_, by simp⟩⟩
    exact onArena_of_error (m := m.retraced lines) hf
  · refine ⟨{ m with arena := arena }, rfl, .inl ⟨a, fun lines => ?_⟩⟩
    exact onArena_of_ok (m := m.retraced lines) hf

theorem key (name : Mark) : Traceless (Effect.key name) := by
  unfold Effect.key
  split
  · exact .pure _
  · exact fun m => ⟨m, rfl, .inr ⟨.broken .name, fun _ => rfl, by simp⟩⟩

theorem current : Traceless (Effect.gets (·.current)) := .gets fun _ _ => rfl

theorem blaming (name : Mark) {x : Effect α} (hx : Traceless x) :
    Traceless (Effect.blaming name x) := by
  intro m
  obtain ⟨n, hn, ⟨a, h⟩ | ⟨why, h, hwhy⟩⟩ := hx m
  · exact ⟨n, hn, .inl ⟨a, fun lines => by rw [Effect.blaming, h]⟩⟩
  · refine ⟨n, hn, .inr ?_⟩
    by_cases hunbound : why = .broken (.scopes .unbound)
    · refine ⟨.failed ⟨name, .undefinedVariable name.lexeme⟩, fun lines => ?_, by simp⟩
      rw [Effect.blaming, h, hunbound]
      rfl
    · refine ⟨why, fun lines => ?_, hwhy⟩
      rw [Effect.blaming, h]
      split
      · rename_i heq
        exact absurd (by simpa using And.left (by simpa using heq)) hunbound
      · rfl

theorem lookUp (name : Mark) : Traceless (Effect.lookUp name) :=
  .bind (.key name) fun _ => .bind .current fun _ => .blaming name (.onArena _)

theorem assign (name : Mark) (v : Value) : Traceless (Effect.assign name v) :=
  .bind (.key name) fun _ => .bind .current fun _ => .blaming name (.onArena _)

theorem define (scope : Handle) (name : Mark) (v : Value) :
    Traceless (Effect.define scope name v) :=
  .bind (.key name) fun _ => .onArena _

theorem defineHere (name : Mark) (v : Value) : Traceless (Effect.defineHere name v) :=
  .bind .current fun _ => .define _ name v

theorem bindParameters (scope : Handle) (names : List Mark) (values : List Value) :
    Traceless (LoxLang.bindParameters scope names values) := by
  induction names generalizing values with
  | nil => exact .pure ()
  | cons name names ih =>
    cases values with
    | nil => exact .pure ()
    | cons v values => exact .bind (.define scope name v) fun _ => ih values

theorem openCall (f : Function) (arguments : List Value) :
    Traceless (LoxLang.openCall f arguments) := by
  refine .bind (.onArena _) fun scope => .bind (.bindParameters scope _ _) fun _ => ?_
  exact .bind (.modify (fun _ _ => rfl) fun _ => rfl) fun _ => .pure scope

theorem leaveScope (settings : Settings) (previous left : Handle) :
    Traceless (LoxLang.leaveScope settings previous left) := by
  refine .bind (.modify (fun _ _ => rfl) fun _ => rfl) fun _ => ?_
  split
  · exact .onArena _
  · exact .pure ()

end Effect.Traceless

/-! ### Lines that are traced -/

/-- Whether lines for levels from `least` on are traced at a level. -/
def traces (least level : Nat) : Bool := least ≤ level && level != 0

/-- A line is added to the trace if lines of its sort are traced. -/
theorem traceFrom_apply (least : Nat) (settings : Settings) (line : String) {m : Machine}
    (hopen : m.traceOpen = true) : traceFrom least settings line m = .done ()
      (m.retraced (if traces least settings.level then m.traced.push line else m.traced)) := by
  have htrace : Effect.trace settings.level line m = .done () (m.retraced
      (if settings.level = 0 then m.traced else m.traced.push line)) := by
    show Outcome.done () (if _ then m else if _ then _ else _) = _
    rw [if_pos hopen]
    split
    · rfl
    · rfl
  by_cases hleast : least ≤ settings.level
  · rw [traceFrom, if_pos hleast, htrace]
    by_cases hzero : settings.level = 0
    · simp [traces, hzero]
    · simp [traces, hleast, hzero]
  · have hnot : traces least settings.level = false := by simp [traces, hleast]
    rw [traceFrom, if_neg hleast, hnot]
    rfl

/-! ### Two levels side by side -/

/-- What had been traced before a run, at the lower level and at the higher one. -/
structure Traces where
  lower : Array String
  higher : Array String

/-- The same machine, but for the trace: of the lines that have since been traced at the higher
level, some have been left out at the lower one. -/
structure Machine.TracesLess (w : Traces) (m m' : Machine) : Prop where
  traceOpen : m.traceOpen = true
  traced : ∃ lines lines' : List String, lines.Sublist lines' ∧ m.traced = w.lower ++ lines.toArray ∧
    m' = m.retraced (w.higher ++ lines'.toArray)

/-- Machines at two levels.  Values are the same, and so is every stop. -/
def betweenLevels : Correspondence where
  World := Traces
  le v w := v = w
  machines := Machine.TracesLess
  values _ a b := a = b
  halts _ := True
  active _ := True
  le_refl _ := rfl
  le_trans := Eq.trans
  values_mono _ h := h
  active_mono _ h := h

variable {w : betweenLevels.World} {α : Type}

/-- An effect that has nothing to do with the trace is the same at both levels. -/
theorem Effect.Traceless.related {results : betweenLevels.World → α → α → Prop} {x : Effect α}
    (hx : x.Traceless) (hresults : ∀ u a, results u a a) :
    Effect.Related betweenLevels betweenLevels.Halting results w x x := by
  rintro (u : Traces) - m _ ⟨hopen, lines, lines', hsub, htraced, rfl⟩
  obtain ⟨n, hn, hend⟩ := hx m
  have hn' : Machine.TracesLess u (n.retraced m.traced) (n.retraced (u.higher ++ lines'.toArray)) :=
    ⟨hn.trans hopen, lines, lines', hsub, htraced, rfl⟩
  obtain ⟨a, h⟩ | ⟨why, h, hwhy⟩ := hend
  · rw [h, show x m = _ from h m.traced]
    exact .done rfl hn' (hresults u a)
  · rw [h, show x m = _ from h m.traced]
    exact .stopped rfl hn' ⟨rfl, trivial, hwhy⟩

/-- What such an effect gives is the same, too. -/
theorem Effect.Traceless.same {x : Effect α} (hx : x.Traceless) :
    Effect.Related betweenLevels betweenLevels.Halting betweenLevels.Same w x x :=
  hx.related fun _ _ => rfl

/-- The same outcome with another trace. -/
def Outcome.retraced {α : Type} (lines : Array String) : Outcome α → Outcome α
  | .done a m => .done a (m.retraced lines)
  | .stopped why m => .stopped why (m.retraced lines)

end LoxLang
