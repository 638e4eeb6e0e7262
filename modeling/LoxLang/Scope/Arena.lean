/-
Scopes in an arena.

A scope holds bindings and the handle of the scope around it; handles are places in an
array of slots.  A scope that is left is released, and its slot is given to the next scope
that is pushed, last released first.  A scope that a function was declared in is pinned,
with all scopes around it, and is then never released.

Every operation refuses a handle whose scope was released or that was never given out.  An
operation that changes the arena gives the arena afterwards also when it is refused;
walking outwards to pin is the one that may have got somewhere by then.  `Arena.apply`
performs any operation.

The walks over the scopes around a scope are bounded by the number of slots.  A walk that
goes on longer meets a scope twice: it is then `endless`, and no operation that keeps to
stacks makes one.
-/
import LoxLang.Value

namespace LoxLang

/-- A scope: the scope around it, its bindings in the order in which they were made, and
whether it is pinned. -/
structure Scope (κ α : Type) where
  parent : Option Handle
  bindings : List (κ × α)
  pinned : Bool

namespace Scope

variable {κ α : Type} [DecidableEq κ]

/-- The value bound to a key in this scope. -/
def find? (s : Scope κ α) (k : κ) : Option α :=
  (s.bindings.find? (·.1 = k)).map (·.2)

/-- Whether the scope binds a key. -/
def binds (s : Scope κ α) (k : κ) : Bool :=
  s.bindings.any (·.1 = k)

/-- The bindings with a key bound to a value, in its old place if it has one. -/
def bindIn (k : κ) (v : α) : List (κ × α) → List (κ × α)
  | [] => [(k, v)]
  | (k', v') :: rest => if k' = k then (k', v) :: rest else (k', v') :: bindIn k v rest

/-- The scope with a key bound to a value. -/
def bind (s : Scope κ α) (k : κ) (v : α) : Scope κ α :=
  { s with bindings := bindIn k v s.bindings }

end Scope

/-- Why an operation on scopes is refused. -/
inductive Refusal where
  /-- The scope with this handle was released. -/
  | released (h : Handle)
  /-- No scope ever had this handle. -/
  | absent (h : Handle)
  /-- No scope around the given one binds the name. -/
  | unbound
  /-- The scopes around the given one form a circle. -/
  | endless
deriving DecidableEq, Repr

/-- Slots for scopes, and the handles of the empty ones, last released first. -/
structure Arena (κ α : Type) where
  slots : Array (Option (Scope κ α))
  vacant : List Handle

namespace Arena

variable {κ α : Type} [DecidableEq κ]

/-- The handle of the global scope. -/
def globals : Handle := 0

/-- An arena with nothing but a global scope, which is pinned. -/
def initial : Arena κ α := ⟨#[some ⟨none, [], true⟩], []⟩

/-- The scope with a handle. -/
def scope (a : Arena κ α) (h : Handle) : Except Refusal (Scope κ α) :=
  match a.slots[h]? with
  | none => .error (.absent h)
  | some none => .error (.released h)
  | some (some s) => .ok s

/-- The arena with another content of a slot. -/
def setSlot : Arena κ α → Handle → Option (Scope κ α) → Arena κ α
  | ⟨slots, vacant⟩, h, content => ⟨slots.setIfInBounds h content, vacant⟩

/-- Makes an empty scope inside another one and gives its handle. -/
def push : Arena κ α → Option Handle → Arena κ α × Handle
  | ⟨slots, []⟩, parent =>
    let h := slots.size
    (⟨slots.push (some ⟨parent, [], false⟩), []⟩, h)
  | ⟨slots, h :: rest⟩, parent =>
    (⟨slots.setIfInBounds h (some ⟨parent, [], false⟩), rest⟩, h)

/-- Gives up a slot. -/
def free : Arena κ α → Handle → Arena κ α
  | ⟨slots, vacant⟩, h => ⟨slots.setIfInBounds h none, h :: vacant⟩

/-- Gives up a scope, unless it is pinned. -/
def release (a : Arena κ α) (h : Handle) : Arena κ α × Except Refusal Unit :=
  match a.scope h with
  | .error r => (a, .error r)
  | .ok s => (if s.pinned then a else a.free h, .ok ())

/-- Pins a scope and the scopes around it, as far as they are not pinned yet, at most `n`
of them. -/
def pinUpTo : Nat → Arena κ α → Handle → Arena κ α × Except Refusal Unit
  | 0, a, _ => (a, .error .endless)
  | n + 1, a, h =>
    match a.scope h with
    | .error r => (a, .error r)
    | .ok s =>
      if s.pinned then (a, .ok ())
      else
        let a := a.setSlot h (some { s with pinned := true })
        match s.parent with
        | none => (a, .ok ())
        | some p => pinUpTo n a p

/-- Pins a scope and the scopes around it.  The scopes around a pinned one are pinned
already, so the walk stops there. -/
def pin (a : Arena κ α) (h : Handle) : Arena κ α × Except Refusal Unit :=
  pinUpTo (a.slots.size + 1) a h

/-- The handle of the scope around a scope. -/
def parent (a : Arena κ α) (h : Handle) : Except Refusal (Option Handle) :=
  (a.scope h).map (·.parent)

/-- Binds a key in a scope. -/
def define (a : Arena κ α) (h : Handle) (k : κ) (v : α) : Arena κ α × Except Refusal Unit :=
  match a.scope h with
  | .error r => (a, .error r)
  | .ok s => (a.setSlot h (some (s.bind k v)), .ok ())

/-- The nearest of the first `n` scopes from a scope outwards that binds a key. -/
def resolveUpTo (a : Arena κ α) (k : κ) : Nat → Handle → Except Refusal (Option Handle)
  | 0, _ => .error .endless
  | n + 1, h =>
    match a.scope h with
    | .error r => .error r
    | .ok s =>
      if s.binds k then .ok (some h)
      else match s.parent with
        | none => .ok none
        | some p => resolveUpTo a k n p

/-- The nearest scope from a scope outwards that binds a key. -/
def resolve (a : Arena κ α) (h : Handle) (k : κ) : Except Refusal (Option Handle) :=
  a.resolveUpTo k (a.slots.size + 1) h

/-- The nearest scope from a scope outwards that binds a key, where there has to be one. -/
def binder (a : Arena κ α) (h : Handle) (k : κ) : Except Refusal Handle :=
  match a.resolve h k with
  | .ok (some b) => .ok b
  | .ok none => .error .unbound
  | .error r => .error r

/-- The value of a key in the nearest scope that binds it. -/
def get (a : Arena κ α) (h : Handle) (k : κ) : Except Refusal α := do
  let s ← a.scope (← a.binder h k)
  match s.find? k with
  | some v => .ok v
  | none => .error .unbound

/-- Binds a key anew in the nearest scope that binds it. -/
def assign (a : Arena κ α) (h : Handle) (k : κ) (v : α) : Arena κ α × Except Refusal Unit :=
  match a.binder h k with
  | .error r => (a, .error r)
  | .ok b => a.define b k v

/-- The number of scopes that are not released. -/
def liveCount (a : Arena κ α) : Nat :=
  a.slots.toList.countP Option.isSome

/-- An operation on scopes. -/
inductive Operation (κ α : Type) where
  | push (parent : Option Handle)
  | release (h : Handle)
  | pin (h : Handle)
  | define (h : Handle) (k : κ) (v : α)
  | assign (h : Handle) (k : κ) (v : α)
  | get (h : Handle) (k : κ)
  | parent (h : Handle)
  | scope (h : Handle)
  | resolve (h : Handle) (k : κ)
  | liveCount

/-- What an operation gives. -/
inductive Answer (κ α : Type) where
  | done
  | handle (h : Handle)
  | parent (h : Option Handle)
  | value (v : α)
  | scope (s : Option (Scope κ α))
  | count (n : Nat)

/-- Performs an operation. -/
def apply (a : Arena κ α) : Operation κ α → Arena κ α × Except Refusal (Answer κ α)
  | .push parent => (a.push parent).map id fun h => .ok (.handle h)
  | .release h => (a.release h).map id fun r => r.map fun _ => .done
  | .pin h => (a.pin h).map id fun r => r.map fun _ => .done
  | .define h k v => (a.define h k v).map id fun r => r.map fun _ => .done
  | .assign h k v => (a.assign h k v).map id fun r => r.map fun _ => .done
  | .get h k => (a, (a.get h k).map .value)
  | .parent h => (a, (a.parent h).map .parent)
  | .scope h => (a, (a.scope h).map fun s => .scope (some s))
  | .resolve h k => (a, do
      match ← a.resolve h k with
      | none => return .scope none
      | some h => return .scope (some (← a.scope h)))
  | .liveCount => (a, .ok (.count a.liveCount))

end Arena

end LoxLang
