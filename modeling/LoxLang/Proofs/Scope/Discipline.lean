/-
Arenas that are used like stacks.

`Arena.Allows` says what may be asked of an arena: a scope is made inside a live one or inside none,
it is given up while no other scope is inside it unless it is pinned, and all else is asked of live
scopes.  A sequence of operations is `Arena.Disciplined` if each of them is allowed where its turn
comes.

A shape is founded (`Shape.Founded`) if the way outwards from each scope comes to an end, and the
scope around a pinned one is pinned.  The order in which handles were given out says nothing about
that, as slots are used again; it is the finite ways themselves that are carried along:

* `Shape.Founded.grow`, `free`, `pin` — what keeps a shape founded;
* `Founded.apply` — hence so does each operation that is allowed;
* `founded_of_disciplined` — and so do disciplined sequences.

In a founded arena all walks outwards end at a scope without one around it (`Founded.walks`).
-/
import LoxLang.Proofs.Scope.Reads

namespace LoxLang

/-! ### Founded shapes -/

namespace Shape

/-- The way outwards from each scope ends, and the scope around a pinned one is pinned. -/
structure Founded (σ : Shape) : Prop where
  chain : ∀ h, (σ h).isSome → ∃ l, σ.Chain h l
  pinned : ∀ g p, σ g = some (some p, true) → σ.Pinned p

/-- With one more scope, made inside another one or inside none. -/
def grow (σ : Shape) (s : Handle) (p : Option Handle) : Shape := fun h =>
  if h = s then some (p, false) else σ h

variable {σ : Shape} {g h s : Handle} {p : Option Handle} {l : List Handle}

theorem grow_self (σ : Shape) (s : Handle) (p : Option Handle) : σ.grow s p s = some (p, false) :=
  if_pos rfl

theorem grow_of_ne (hne : h ≠ s) : σ.grow s p h = σ h := if_neg hne

/-- From each scope of a way but the first one, a scope before it is inside it. -/
theorem Chain.exists_child (hl : σ.Chain h l) (hg : g ∈ l) (hne : g ≠ h) :
    ∃ c b, σ c = some (some g, b) := by
  induction hl with
  | last _ => exact absurd (List.mem_singleton.mp hg) hne
  | @step h p b l scope rest ih =>
    have hg : g ∈ l := (List.mem_cons.mp hg).resolve_left hne
    by_cases hgp : g = p
    · exact ⟨h, b, hgp ▸ scope⟩
    · exact ih hg hgp

/-- Around a pinned scope all scopes are pinned. -/
theorem Founded.pinned_of_mem (hσ : σ.Founded) (hl : σ.Chain h l) (hh : σ.Pinned h) :
    ∀ g ∈ l, σ.Pinned g := by
  induction hl with
  | last _ => exact fun g hg => List.mem_singleton.mp hg ▸ hh
  | @step h p b l scope rest ih =>
    obtain ⟨q, hq⟩ := hh
    rw [scope] at hq
    cases hq
    exact List.forall_mem_cons.mpr ⟨⟨_, scope⟩, ih (hσ.pinned h p scope)⟩

namespace Founded

theorem initial {κ α : Type} : (Arena.initial : Arena κ α).shape.Founded where
  chain h hh := by
    rw [Arena.shape_initial] at hh
    split at hh
    · rename_i heq
      exact ⟨[h], .last ((Arena.shape_initial h).trans (if_pos heq))⟩
    · cases hh
  pinned g p hg := by
    rw [Arena.shape_initial] at hg
    obtain ⟨-, hg⟩ := Option.ite_none_right_eq_some.mp hg
    cases hg

/-- A new scope, inside one that is there or inside none. -/
theorem grow (hσ : σ.Founded) (hfree : σ s = none) (hp : ∀ q ∈ p, (σ q).isSome) :
    (σ.grow s p).Founded := by
  have hne {g : Handle} {x : Option Handle × Bool} (hg : σ g = some x) : g ≠ s := by
    rintro rfl
    rw [hfree] at hg
    cases hg
  -- The ways that were there do not come to the new scope.
  have hkeep {h : Handle} {l : List Handle} (hl : σ.Chain h l) : (σ.grow s p).Chain h l :=
    hl.congr fun g _ q b hq => ⟨b, (grow_of_ne (hne hq)).trans hq⟩
  refine ⟨fun h hh => ?_, fun g q hg => ?_⟩
  · by_cases hs : h = s
    · subst hs
      cases p with
      | none => exact ⟨[h], .last (grow_self _ _ _)⟩
      | some q =>
        obtain ⟨l, hl⟩ := hσ.chain q (hp q rfl)
        exact ⟨h :: l, .step (grow_self _ _ _) (hkeep hl)⟩
    · rw [grow_of_ne hs] at hh
      obtain ⟨l, hl⟩ := hσ.chain h hh
      exact ⟨l, hkeep hl⟩
  · by_cases hs : g = s
    · rw [hs, grow_self] at hg
      cases hg
    · rw [grow_of_ne hs] at hg
      obtain ⟨x, hx⟩ := hσ.pinned g q hg
      exact ⟨x, (grow_of_ne (hne hx)).trans hx⟩

/-- A scope that no other one is inside of is given up. -/
theorem free (hσ : σ.Founded) (hchild : ∀ g b, σ g ≠ some (some s, b)) : (σ.free s).Founded := by
  refine ⟨fun h hh => ?_, fun g p hg => ?_⟩
  · have hs : h ≠ s := by
      rintro rfl
      rw [Shape.free, if_pos rfl] at hh
      cases hh
    rw [free_of_ne hs] at hh
    obtain ⟨l, hl⟩ := hσ.chain h hh
    have hnot : s ∉ l := fun hmem => by
      obtain ⟨c, b, hc⟩ := hl.exists_child hmem hs.symm
      exact hchild c b hc
    refine ⟨l, hl.congr fun g hg q b hq => ⟨b, (free_of_ne ?_).trans hq⟩⟩
    rintro rfl
    exact hnot hg
  · have hs : g ≠ s := by
      rintro rfl
      rw [Shape.free, if_pos rfl] at hg
      cases hg
    rw [free_of_ne hs] at hg
    obtain ⟨x, hx⟩ := hσ.pinned g p hg
    refine ⟨x, (free_of_ne ?_).trans hx⟩
    rintro rfl
    exact hchild g true hg

/-- The scopes of a whole way outwards are pinned. -/
theorem pin (hσ : σ.Founded) (hl : σ.Chain h l) : (σ.pin l).Founded := by
  have hlive : ∀ g ∈ l, (σ g).isSome := fun g hg => hl.isSome_of_mem hg
  refine ⟨fun h hh => ?_, fun g p hg => ?_⟩
  · have hh : (σ h).isSome := by
      by_cases hmem : h ∈ l
      · exact hlive h hmem
      · rwa [pin_of_not_mem hmem] at hh
    obtain ⟨k, hk⟩ := hσ.chain h hh
    refine ⟨k, hk.congr fun g _ q b hq => ?_⟩
    obtain ⟨b', hb', -⟩ := Persists.pin σ l g q b hq
    exact ⟨b', hb'⟩
  · refine (pinned_pin_iff hlive).mpr ?_
    by_cases hmem : g ∈ l
    · -- The scope around one of the way is the next one of it.
      obtain ⟨k, hk, hkl⟩ := hl.exists_suffix hmem
      obtain ⟨⟨q, b⟩, hq⟩ := Option.isSome_iff_exists.mp (hlive g hmem)
      rw [pin_of_mem hmem hq] at hg
      cases hg
      cases hk with
      | last scope =>
        rw [scope] at hq
        cases hq
      | step scope rest =>
        rw [scope] at hq
        cases hq
        exact .inr (hkl.subset (List.mem_cons_of_mem _ rest.head_mem))
    · rw [pin_of_not_mem hmem] at hg
      exact .inl (hσ.pinned g p hg)

end Founded

end Shape

namespace Arena

variable {κ α : Type} {a b : Arena κ α} {g h : Handle} {s : Scope κ α} {l : List Handle}

/-! ### Founded arenas -/

/-- The vacant slots are the empty ones, the way outwards from each scope ends, and the scope around
a pinned one is pinned. -/
structure Founded (a : Arena κ α) : Prop where
  exact : a.Exact
  shape : a.shape.Founded

theorem live_iff : a.Live h ↔ (a.shape h).isSome := isSome_shape_iff.symm

theorem Founded.grounded (ha : a.Founded) : a.Grounded := by
  intro h hh
  obtain ⟨l, hl⟩ := ha.shape.chain h (live_iff.mp hh)
  exact ⟨l, outward_of_chain hl⟩

theorem Founded.pinnedOutwards (ha : a.Founded) (l : List Handle) : a.PinnedOutwards l := by
  intro g _ s hs hpinned p hp t ht
  obtain ⟨u, hu, hupinned⟩ := pinned_shape_iff.mp (ha.shape.pinned g p (by
    rw [shape_of_scope hs, hp, hpinned]))
  rwa [scope_unique ht hu]

/-- From a live scope outwards all is well: the scopes are finitely many, live and different, and
around a pinned one they are pinned; pinning pins them all. -/
theorem Founded.outward (ha : a.Founded) (hh : a.Live h) :
    ∃ l, a.Outward h l ∧ l.Nodup ∧ (∀ g ∈ l, a.Live g) ∧
      (a.shape.Pinned h → ∀ g ∈ l, a.shape.Pinned g) ∧
      ∃ b, a.pin h = (b, .ok ()) ∧ Pinned l a b ∧ ∀ g ∈ l, b.shape.Pinned g := by
  obtain ⟨l, hl⟩ := ha.grounded h hh
  have hlive : ∀ g ∈ l, a.Live g := fun g hg => hl.scope_of_mem hg
  obtain ⟨b, hb, hpinned⟩ := hl.pin hl.nodup (ha.pinnedOutwards l)
  refine ⟨l, hl, hl.nodup, hlive, ha.shape.pinned_of_mem hl.chain, b, hb, hpinned, fun g hg => ?_⟩
  obtain ⟨s, hs⟩ := hlive g hg
  exact pinned_shape_iff.mpr ⟨_, hpinned.inside g hg s hs, rfl⟩

theorem shape_push_option (ha : a.Tidy) (p : Option Handle) :
    (a.push p).1.shape = a.shape.grow (a.push p).2 p := by
  funext g
  by_cases hg : g = (a.push p).2
  · rw [hg, Shape.grow_self, shape_of_scope (by rw [scope_push ha, if_pos rfl])]
  · rw [Shape.grow_of_ne hg]
    exact shape_congr (by rw [scope_push ha, if_neg hg])

variable [DecidableEq κ] {k : κ} {v : α} {op : Operation κ α} {ops more : List (Operation κ α)}

/-- Looking a name up from a live scope, and binding it anew, is never refused but for the name. -/
theorem Founded.walks (ha : a.Founded) (hh : a.Live h) (k : κ) :
    (∃ r, a.resolve h k = .ok r) ∧
      ((∃ v, a.get h k = .ok v) ∨ a.get h k = .error .unbound) ∧
      ∀ v, (a.assign h k v).2 = .ok () ∨ (a.assign h k v).2 = .error .unbound := by
  obtain ⟨l, hl⟩ := ha.grounded h hh
  refine ⟨⟨_, hl.resolve hl.nodup⟩, ?_, fun v => ?_⟩
  · rw [hl.get_eq]
    cases l.findSome? (a.valueAt k) with
    | some v => exact .inl ⟨v, rfl⟩
    | none => exact .inr rfl
  · obtain ⟨g, s, _, -, hs, -, -, hassign⟩ | ⟨-, hassign⟩ := hl.assign_cases k v
    · rw [hassign, define_eq hs]
      exact .inl rfl
    · rw [hassign]
      exact .inr rfl

/-! ### What may be asked -/

/-- No scope is inside this one. -/
def Childless (a : Arena κ α) (h : Handle) : Prop := ∀ g t, a.scope g = .ok t → t.parent ≠ some h

/-- What may be asked of an arena. -/
def Allows (a : Arena κ α) : Operation κ α → Prop
  | .push none => True
  | .push (some p) => a.Live p
  | .release h => a.Live h ∧ (a.shape.Pinned h ∨ a.Childless h)
  | .pin h | .define h _ _ | .assign h _ _ | .get h _ | .parent h | .scope h | .resolve h _ =>
    a.Live h
  | .liveCount => True

omit [DecidableEq κ] in
theorem childless_iff :
    a.Childless h ↔ ∀ x ∈ a.slots.toList, ∀ t ∈ x, t.parent ≠ some h := by
  have hmem (t : Scope κ α) : some t ∈ a.slots.toList ↔ ∃ g, a.scope g = .ok t := by
    simp only [Array.mem_toList_iff, Array.mem_iff_getElem?, scope_eq_ok]
  constructor
  · rintro hh _ hx t rfl
    obtain ⟨g, hg⟩ := (hmem t).mp hx
    exact hh g t hg
  · exact fun hh g t hg => hh _ ((hmem t).mpr ⟨g, hg⟩) t rfl

instance (a : Arena κ α) (h : Handle) : Decidable (a.Live h) :=
  decidable_of_iff (a.shape h).isSome live_iff.symm

instance (a : Arena κ α) (h : Handle) : Decidable (a.Childless h) :=
  decidable_of_iff _ childless_iff.symm

instance (σ : Shape) (h : Handle) : Decidable (σ.Pinned h) :=
  decidable_of_iff ((σ h).any (·.2)) (by
    rw [Shape.Pinned]
    rcases σ h with _ | ⟨p, b⟩ <;> simp)

instance (a : Arena κ α) : (op : Operation κ α) → Decidable (a.Allows op)
  | .push none | .liveCount => isTrue trivial
  | .push (some p) => inferInstanceAs (Decidable (a.Live p))
  | .release h => inferInstanceAs (Decidable (a.Live h ∧ (a.shape.Pinned h ∨ a.Childless h)))
  | .pin h | .define h _ _ | .assign h _ _ | .get h _ | .parent h | .scope h | .resolve h _ =>
    inferInstanceAs (Decidable (a.Live h))

/-- What is allowed keeps an arena founded. -/
theorem Founded.apply (ha : a.Founded) (hop : a.Allows op) : (a.apply op).1.Founded := by
  refine ⟨ha.exact.apply op, ?_⟩
  have htidy := ha.exact.tidy
  cases op with
  | push p =>
    show (a.push p).1.shape.Founded
    rw [shape_push_option htidy]
    refine ha.shape.grow (shape_fresh htidy p) fun q hq => ?_
    cases hq
    exact live_iff.mp hop
  | release h =>
    obtain ⟨⟨s, hs⟩, hs'⟩ := hop
    have hrelease : (a.apply (.release h)).1 = if s.pinned then a else a.free h := by
      simp only [Arena.apply, release, hs]
      rfl
    rw [hrelease]
    split
    · exact ha.shape
    · rename_i hunpinned
      have hchildless : a.Childless h := hs'.resolve_left fun hh => by
        obtain ⟨t, ht, hpinned⟩ := pinned_shape_iff.mp hh
        exact hunpinned (scope_unique hs ht ▸ hpinned)
      rw [shape_free hs]
      refine ha.shape.free fun g b hg => ?_
      obtain ⟨t, ht, hparent, -⟩ := shape_eq_some.mp hg
      exact hchildless g t ht hparent
  | pin h =>
    obtain ⟨l, hl, -, -, -, b, hb, hpinned, -⟩ := ha.outward hop
    have hpin : (a.apply (.pin h)).1 = b := congrArg Prod.fst hb
    rw [hpin, hpinned.shape fun g hg => isSome_shape_iff.mpr (hl.scope_of_mem hg)]
    exact ha.shape.pin hl.chain
  | define h k v =>
    show (a.define h k v).1.shape.Founded
    rw [shape_define]
    exact ha.shape
  | assign h k v =>
    show (a.assign h k v).1.shape.Founded
    rw [shape_assign]
    exact ha.shape
  | get h k | parent h | scope h | resolve h k | liveCount => exact ha.shape

/-- The arena after some operations, refused ones included. -/
def perform (a : Arena κ α) (ops : List (Operation κ α)) : Arena κ α :=
  ops.foldl (fun a op => (a.apply op).1) a

/-- Each operation is allowed where its turn comes. -/
def Disciplined (a : Arena κ α) : List (Operation κ α) → Prop
  | [] => True
  | op :: rest => a.Allows op ∧ (a.apply op).1.Disciplined rest

instance decidableDisciplined (a : Arena κ α) :
    (ops : List (Operation κ α)) → Decidable (a.Disciplined ops)
  | [] => isTrue trivial
  | op :: rest =>
    have := decidableDisciplined (a.apply op).1 rest
    inferInstanceAs (Decidable (a.Allows op ∧ (a.apply op).1.Disciplined rest))

theorem perform_append (a : Arena κ α) (ops more : List (Operation κ α)) :
    a.perform (ops ++ more) = (a.perform ops).perform more :=
  List.foldl_append

theorem disciplined_append : a.Disciplined (ops ++ more) ↔
    a.Disciplined ops ∧ (a.perform ops).Disciplined more := by
  induction ops generalizing a with
  | nil => simp [Disciplined, perform]
  | cons op rest ih => exact (and_congr_right fun _ => ih).trans and_assoc.symm

theorem Founded.perform (ha : a.Founded) (hops : a.Disciplined ops) : (a.perform ops).Founded := by
  induction ops generalizing a with
  | nil => exact ha
  | cons op rest ih => exact ih (ha.apply hops.1) hops.2

/-- After a disciplined sequence an arena is founded. -/
theorem founded_of_disciplined (hops : (initial : Arena κ α).Disciplined ops) :
    (after ops).Founded :=
  Founded.perform ⟨exact_initial, .initial⟩ hops

/-- A scope that is given up while another one is inside it comes to be inside that one. -/
example : let ops : List (Operation Bool Nat) :=
      [.push (some globals), .push (some 1), .release 1, .push (some 2)]
    ¬(initial : Arena Bool Nat).Disciplined ops ∧
      (after ops).resolve 1 true = .error .endless := by
  decide +kernel

end Arena

end LoxLang
