/-
Machines that are alike but for the places of tokens.

Values that correspond differ at most in the places in the declarations of functions.  Machines that
are alike (`Machine.Like`) have alike scopes behind the same handles and have printed the same.  Only
what is traced and what is reported may tell them apart, as lines of the source are named there.

An effect that begins in machines that are alike ends alike (`Effect.Like`), as long as it is put
together from such effects:

* `Effect.Like.bind`, `Effect.Like.whileTrue`, ... — one rule for each way to put effects together;
* `Effect.Like.told` — lines that are written for the trace or for errors do not matter;
* `Effect.Like.lookUp`, `Effect.Like.assign`, `Effect.Like.define` — names.
-/
import LoxLang.Proofs.Machine.Simulation
import LoxLang.Proofs.Scope.Parallel
import LoxLang.Proofs.Tree.Likeness

namespace LoxLang

/-! ### Values and machines -/

/-- The same function, but for the places in its declaration. -/
structure Function.Like (L : Likeness) (f g : Function) : Prop where
  id : f.id = g.id
  name : L.marks f.name g.name
  params : List.Forall₂ L.marks f.params g.params
  body : Node.AllLike L f.body g.body
  closure : f.closure = g.closure

/-- The same value, but for the places in the declarations of functions. -/
inductive Value.Like (L : Likeness) : Value → Value → Prop where
  | function {f g : Function} (h : f.Like L g) : Like L (.function f) (.function g)
  | same {v : Value} (h : ∀ f, v ≠ .function f) : Like L v v

/-- The same fault, blamed on marks that are taken for each other.  Too many calls are blamed on the
closing parenthesis of the last one. -/
structure RuntimeError.Like (L : Likeness) (e f : RuntimeError) : Prop where
  mark : L.marks e.mark f.mark
  fault : e.fault = f.fault
  overflow : e.fault = .stackOverflow → e.mark.kind = .rightParen

/-- Trees that make no sense to the machine in the same way. -/
inductive Breakage.Like (L : Likeness) : Breakage → Breakage → Prop where
  | statement {e f : Node} (h : Node.Like L e f) : Like L (.statement e) (.statement f)
  | expression {e f : Node} (h : Node.Like L e f) : Like L (.expression e) (.expression f)
  | name : Like L .name .name
  | program : Like L .program .program
  | scopes {r : Refusal} : Like L (.scopes r) (.scopes r)

/-- Stops for the same reason. -/
inductive Stop.Like (L : Likeness) : Stop → Stop → Prop where
  | returned {v w : Value} (h : v.Like L w) : Like L (.returned v) (.returned w)
  | failed {e f : RuntimeError} (h : e.Like L f) : Like L (.failed e) (.failed f)
  | broken {b c : Breakage} (h : b.Like L c) : Like L (.broken b) (.broken c)
  | exhausted : Like L .exhausted .exhausted

/-- Machines that are alike in everything but the lines of the trace and those for errors. -/
structure Machine.Like (L : Likeness) (m n : Machine) : Prop where
  arena : m.arena.Like (Value.Like L) n.arena
  current : m.current = n.current
  calls : List.Forall₂ (Function.Like L) m.calls n.calls
  nextId : m.nextId = n.nextId
  printed : m.printed = n.printed
  traceOpen : m.traceOpen = true ∧ n.traceOpen = true

/-- Machines, values and stops that are alike. -/
def sideBySide (L : Likeness) : Correspondence where
  World := Unit
  le _ _ := True
  machines _ := Machine.Like L
  values _ := Value.Like L
  halts _ := True
  active _ := True
  le_refl _ := trivial
  le_trans _ _ := trivial
  values_mono _ h := h
  active_mono _ _ := trivial

/-- Effects end alike: in machines, with results or for reasons that are. -/
abbrev Outcome.Like (L : Likeness) {α β : Type} (results : α → β → Prop) (x : Outcome α)
    (y : Outcome β) : Prop :=
  Outcome.Related (sideBySide L) (fun _ => Stop.Like L) (fun _ => results) () x y

/-- Effects that end alike when they begin in machines that are alike. -/
abbrev Effect.Like (L : Likeness) {α β : Type} (results : α → β → Prop) (x : Effect α)
    (y : Effect β) : Prop :=
  Effect.Related (sideBySide L) (fun _ => Stop.Like L) (fun _ => results) () x y

variable {L : Likeness} {α β : Type} {results : α → β → Prop}

theorem RuntimeError.diagnostic_mark (e : RuntimeError) : e.diagnostic.mark = e.mark := by
  rw [diagnostic]
  split <;> rfl

/-- The class and the words of an error are found from its fault. -/
theorem RuntimeError.Like.sameWords {e f : RuntimeError} (h : e.Like L f) :
    e.diagnostic.sort = f.diagnostic.sort ∧ e.diagnostic.message = f.diagnostic.message := by
  rw [diagnostic, diagnostic, h.fault]
  split <;> exact ⟨rfl, rfl⟩

theorem Machine.like_initial : Machine.initial.Like L .initial :=
  ⟨Arena.like_initial, rfl, .nil, rfl, rfl, rfl, rfl⟩

namespace Outcome.Like

theorem done {a : α} {b : β} {m n : Machine} (hm : m.Like L n) (hab : results a b) :
    Like L results (.done a m) (.done b n) :=
  Related.done ((sideBySide L).le_refl ()) hm hab

theorem stopped {why why' : Stop} {m n : Machine} (hm : m.Like L n) (hwhy : why.Like L why') :
    Like L results (.stopped why m) (.stopped why' n) :=
  Related.stopped ((sideBySide L).le_refl ()) hm hwhy

end Outcome.Like

theorem Effect.Like.apply {x : Effect α} {y : Effect β} (h : Effect.Like L results x y)
    {m n : Machine} (hm : m.Like L n) : Outcome.Like L results (x m) (y n) :=
  h () trivial m n hm

theorem Function.Like.arity_eq {f g : Function} (h : f.Like L g) : f.arity = g.arity :=
  h.params.length_eq

theorem Machine.Like.closure_eq {m n : Machine} (h : m.Like L n) : m.closure = n.closure := by
  rw [closure, closure, h.current]
  have hcalls := h.calls
  generalize m.calls = fs, n.calls = gs at hcalls
  cases hcalls with
  | nil => rfl
  | cons hfg _ => exact hfg.closure

theorem Machine.Like.tail_calls {m n : Machine} (h : m.Like L n) :
    List.Forall₂ (Function.Like L) m.calls.tail n.calls.tail := by
  rw [← List.drop_one, ← List.drop_one]
  exact List.forall₂_drop 1 h.calls

namespace Value.Like

variable {v w v' w' : Value}

theorem ofJson (j : Json) : Like L (.ofJson j) (.ofJson j) := by
  refine .same fun f => ?_
  cases j <;> exact Value.noConfusion

theorem isTruthy_eq (h : v.Like L w) : v.isTruthy = w.isTruthy := by
  cases h <;> rfl

theorem display_eq (h : v.Like L w) : v.display = w.display := by
  cases h with
  | function h => rw [display, display, Likeness.lexeme_of_marks h.name]
  | same => rfl

theorem equal_eq (h : v.Like L w) (h' : v'.Like L w') : v.equal v' = w.equal w' := by
  cases h with
  | function h =>
    cases h' with
    | function h' => rw [equal, equal, h.id, h'.id]
    | same hv' => cases v' with
      | function k => exact absurd rfl (hv' k)
      | _ => rfl
  | same hv =>
    cases h' with
    | function h' => cases v with
      | function k => exact absurd rfl (hv k)
      | _ => rfl
    | same => rfl

end Value.Like

/-! ### Lines for the trace and for errors -/

/-- The effect gives `a` and does no more than write lines to the trace and for errors. -/
def Effect.Tells (x : Effect α) (a : α) : Prop :=
  ∀ m : Machine, m.traceOpen = true →
    ∃ traced reported, x m = .done a { m with traced := traced, reported := reported }

namespace Effect.Tells

theorem pure (a : α) : Tells (Pure.pure a) a := fun m _ => ⟨m.traced, m.reported, rfl⟩

theorem report (line : String) : Tells (Effect.report line) () :=
  fun m _ => ⟨m.traced, m.reported.push line, rfl⟩

/-- As long as the trace is open, nothing of it is printed. -/
theorem trace (level : Nat) (line : String) : Tells (Effect.trace level line) () := by
  intro m hm
  by_cases hlevel : level = 0
  · exact ⟨m.traced, m.reported, by rw [Effect.trace, modify, if_pos hlevel]⟩
  · exact ⟨m.traced.push line, m.reported, by rw [Effect.trace, modify, if_neg hlevel, if_pos hm]⟩

theorem traceFrom (least : Nat) (settings : Settings) (line : String) :
    Tells (LoxLang.traceFrom least settings line) () := by
  rw [LoxLang.traceFrom]
  split
  · exact trace _ line
  · exact pure ()

theorem bind {x : Effect α} {f : α → Effect β} {a : α} {b : β} (hx : x.Tells a)
    (hf : (f a).Tells b) : Tells (x >>= f) b := by
  intro m hm
  obtain ⟨traced, reported, h⟩ := hx m hm
  obtain ⟨traced', reported', h'⟩ := hf { m with traced := traced, reported := reported } hm
  exact ⟨traced', reported', by rw [bind_of_done h, h']⟩

end Effect.Tells

/-! ### Effects -/

namespace Effect.Like

variable {γ δ : Type} {middle : γ → δ → Prop} {m n : Mark} {v w : Value}

theorem pure {a : α} {b : β} (h : results a b) : Like L results (Pure.pure a) (Pure.pure b) :=
  Related.pure fun _ _ => h

theorem stop {why why' : Stop} (h : why.Like L why') :
    Like L results (Effect.stop why) (Effect.stop why') :=
  Related.stop fun _ _ => h

theorem modify {f g : Machine → Machine} (h : ∀ m n, m.Like L n → (f m).Like L (g n)) :
    Like L (fun _ _ => True) (Effect.modify f) (Effect.modify g) :=
  Related.modify fun _ _ => h

theorem bind {x : Effect γ} {y : Effect δ} {f : γ → Effect α} {g : δ → Effect β}
    (hxy : Like L middle x y) (hfg : ∀ c d, middle c d → Like L results (f c) (g d)) :
    Like L results (x >>= f) (y >>= g) :=
  Related.bind hxy fun _ _ => hfg

/-- One effect after another whose result does not matter. -/
theorem seq {x : Effect γ} {y : Effect δ} {f : γ → Effect α} {g : δ → Effect β}
    (hxy : Like L middle x y) (hfg : ∀ c d, Like L results (f c) (g d)) :
    Like L results (x >>= f) (y >>= g) :=
  hxy.bind fun c d _ => hfg c d

/-- A part of the state that is the same on both sides, and what is done with it. -/
theorem getting {f : Machine → γ} {x : γ → Effect α} {y : γ → Effect β}
    (hf : ∀ m n, m.Like L n → f m = f n) (h : ∀ c, Like L results (x c) (y c)) :
    Like L results (gets f >>= x) (gets f >>= y) := by
  refine bind (Related.gets fun _ _ => hf) fun c d hcd => ?_
  obtain rfl : c = d := hcd
  exact h c

theorem ensuring {x : Effect α} {y : Effect β} {last last' : Effect Unit}
    {ends : Unit → Unit → Prop} (hxy : Like L results x y) (hlast : Like L ends last last') :
    Like L results (Effect.ensuring x last) (Effect.ensuring y last') := by
  intro _ _ m n hm
  have hlast : Like L (fun _ _ => True) last last' := hlast.anything
  exact (hxy.apply hm).ensuring (fun _ _ _ _ _ h => h) (fun _ _ _ _ _ h => h)
    fun _ _ _ _ hm => ⟨(), trivial, fun _ _ h => h, fun _ _ h => h, hlast.apply hm⟩

theorem map {x : Effect γ} {y : Effect δ} {f : γ → α} {g : δ → β} (hxy : Like L middle x y)
    (hfg : ∀ c d, middle c d → results (f c) (g d)) : Like L results (f <$> x) (g <$> y) :=
  Related.map hxy fun _ => hfg

theorem whileTrue {c c' : Effect Bool} {body body' : Effect Unit} (hc : Like L (· = ·) c c')
    (hbody : Like L (fun _ _ => True) body body') (n : Nat) :
    Like L (fun _ _ => True) (Effect.whileTrue c body n) (Effect.whileTrue c' body' n) :=
  Related.whileTrue (fun _ _ => hc) (fun _ _ => hbody) (fun _ => .exhausted) n

/-- Lines that are written on the way do not matter. -/
theorem told {x : Effect γ} {y : Effect δ} {c : γ} {d : δ} {f : γ → Effect α} {g : δ → Effect β}
    (hx : x.Tells c) (hy : y.Tells d) (hfg : Like L results (f c) (g d)) :
    Like L results (x >>= f) (y >>= g) := by
  intro _ _ m n hm
  obtain ⟨traced, reported, h⟩ := hx m hm.traceOpen.1
  obtain ⟨traced', reported', h'⟩ := hy n hm.traceOpen.2
  rw [bind_of_done h, bind_of_done h']
  exact hfg.apply { hm with }

/-- Lines that are written on one side only do not matter either. -/
theorem told_left {x : Effect γ} {c : γ} {f : γ → Effect α} {y : Effect β} (hx : x.Tells c)
    (h : Like L results (f c) y) : Like L results (x >>= f) y :=
  told (y := Pure.pure ()) (g := fun _ => y) hx (.pure ()) h

theorem told_right {x : Effect α} {y : Effect δ} {d : δ} {g : δ → Effect β} (hy : y.Tells d)
    (h : Like L results x (g d)) : Like L results x (y >>= g) :=
  told (x := Pure.pure ()) (f := fun _ => x) (.pure ()) hy h

theorem of_tells {x : Effect α} {y : Effect β} {a : α} {b : β} (hx : x.Tells a) (hy : y.Tells b)
    (hab : results a b) : Like L results x y := by
  intro _ _ m n hm
  obtain ⟨traced, reported, h⟩ := hx m hm.traceOpen.1
  obtain ⟨traced', reported', h'⟩ := hy n hm.traceOpen.2
  rw [h, h']
  exact Outcome.Like.done { hm with } hab

theorem nil : Like L (Value.Like L) (Pure.pure .nil) (Pure.pure .nil) := pure (.ofJson .null)

theorem fail (hmn : L.marks m n) {fault : RuntimeFault}
    (hfault : fault = .stackOverflow → m.kind = .rightParen) :
    Like L results (Effect.fail m fault) (Effect.fail n fault) :=
  stop (.failed ⟨hmn, rfl, hfault⟩)

theorem print (line : String) : Like L (fun _ _ => True) (Effect.print line) (Effect.print line) :=
  modify fun _ _ h => { h with printed := congrArg (·.push line) h.printed }

/-! ### Names and scopes -/

theorem onArena {f : Arena Key Value → Arena Key Value × Except Refusal α}
    {g : Arena Key Value → Arena Key Value × Except Refusal β}
    (h : ∀ a b, a.Like (Value.Like L) b → Arena.SameStep (Value.Like L) results (f a) (g b)) :
    Like L results (Effect.onArena f) (Effect.onArena g) := by
  intro _ _ m n hm
  obtain ⟨harena, hanswer⟩ := h _ _ hm.arena
  rcases hf : f m.arena with ⟨a, x⟩
  rcases hg : g n.arena with ⟨b, y⟩
  rw [hf, hg] at harena hanswer
  cases hanswer with
  | ok hxy =>
    rw [onArena_of_ok hf, onArena_of_ok hg]
    exact Outcome.Like.done { hm with arena := harena } hxy
  | error =>
    rw [onArena_of_error hf, onArena_of_error hg]
    exact Outcome.Like.stopped { hm with arena := harena } (.broken .scopes)

theorem pushScope (parent : Handle) :
    Like L (· = ·) (Effect.pushScope parent) (Effect.pushScope parent) :=
  onArena fun _ _ h => ⟨(h.push _).1, .ok (h.push _).2⟩

theorem pinScope (h : Handle) : Like L (· = ·) (Effect.pinScope h) (Effect.pinScope h) :=
  onArena fun _ _ hab => hab.pin h

theorem releaseScope (h : Handle) :
    Like L (· = ·) (Effect.releaseScope h) (Effect.releaseScope h) :=
  onArena fun _ _ hab => hab.release h

/-- What is done with the key of a name. -/
theorem keyed (hmn : L.marks m n) {x : Key → Effect α} {y : Key → Effect β}
    (h : ∀ k, Like L results (x k) (y k)) :
    Like L results (key m >>= x) (key n >>= y) := by
  have hkey : Like L (· = ·) (key m) (key n) := by
    rw [key, key, Likeness.lexeme_of_marks hmn]
    split
    · exact pure rfl
    · exact stop (.broken .name)
  refine hkey.bind fun k k' hk => ?_
  obtain rfl : k = k' := hk
  exact h k

theorem define (h : Handle) (hmn : L.marks m n) (hvw : v.Like L w) :
    Like L (· = ·) (Effect.define h m v) (Effect.define h n w) :=
  keyed hmn fun k => onArena fun _ _ hab => hab.define h k hvw

theorem defineHere (hmn : L.marks m n) (hvw : v.Like L w) :
    Like L (· = ·) (Effect.defineHere m v) (Effect.defineHere n w) :=
  getting (fun _ _ hm => hm.current) fun h => define h hmn hvw

theorem blaming (hmn : L.marks m n) {x : Effect α} {y : Effect β} (h : Like L results x y) :
    Like L results (Effect.blaming m x) (Effect.blaming n y) := by
  intro _ _ p q hp
  have hxy := h.apply hp
  rw [Effect.blaming, Effect.blaming]
  generalize x p = o, y q = o' at hxy ⊢
  cases hxy with
  | done _ hm hresults => exact Outcome.Like.done hm hresults
  | stopped _ hm hstop =>
    cases hstop with
    | returned h => exact Outcome.Like.stopped hm (.returned h)
    | failed h => exact Outcome.Like.stopped hm (.failed h)
    | exhausted => exact Outcome.Like.stopped hm .exhausted
    | broken h =>
      cases h with
      | statement h => exact Outcome.Like.stopped hm (.broken (.statement h))
      | expression h => exact Outcome.Like.stopped hm (.broken (.expression h))
      | name => exact Outcome.Like.stopped hm (.broken .name)
      | program => exact Outcome.Like.stopped hm (.broken .program)
      | @scopes r =>
        cases r with
        -- The name is without a definition on both sides: it is blamed on both.
        | unbound =>
          rw [Likeness.lexeme_of_marks hmn]
          exact Outcome.Like.stopped hm (.failed ⟨hmn, rfl, fun h => RuntimeFault.noConfusion h⟩)
        | _ => exact Outcome.Like.stopped hm (.broken .scopes)

theorem lookUp (hmn : L.marks m n) :
    Like L (Value.Like L) (Effect.lookUp m) (Effect.lookUp n) :=
  keyed hmn fun k => getting (fun _ _ hm => hm.current) fun h =>
    blaming hmn (onArena fun _ _ hab => ⟨hab, hab.get h k⟩)

theorem assign (hmn : L.marks m n) (hvw : v.Like L w) :
    Like L (· = ·) (Effect.assign m v) (Effect.assign n w) :=
  keyed hmn fun k => getting (fun _ _ hm => hm.current) fun h =>
    blaming hmn (onArena fun _ _ hab => hab.assign h k hvw)

end Effect.Like

end LoxLang
