/-
What readers pass on the way.

`Reader.Leads` says of two readers that the first one, where certain tokens lie ahead, passes
them, records certain errors, and goes on as the second one.  The errors carry the index of the
token that they are of, so that it is said with which index the tokens begin, and in how many
function bodies.  What comes next has to be of a kind that `follow` allows.

* `Leads.trans`, `Leads.seq` — one reader after the other;
* `Leads.expect`, `Leads.accept_yes`, `Leads.advance`, ... — the basic readers, each in front of
  what follows it;
* `Leads.inFunction`, `Leads.recovering` — readers around another one.

A fault is not an end: a reader that gives up leads to `fail`, and a declaration that does leads
to what is done after a fault.
-/
import LoxLang.Proofs.Reader.Loops
import LoxLang.Proofs.Reader.StatementCompleteness

namespace LoxLang

namespace Reading

variable {s : Reading} {ts us : List Token} {next : Token} {faults faults' : List SyntaxError}

theorem skip_withErrors (s : Reading) (errors heard : List SyntaxError) (n : Nat) :
    { s with errors := errors, heard := heard }.skip n
      = { s.skip n with errors := errors, heard := heard } := by
  induction n generalizing s with
  | zero => rfl
  | succ n ih => rw [skip_succ, skip_succ, ← ih]

/-- The state so many tokens further, with some more errors recorded. -/
def past (s : Reading) (n : Nat) (faults : List SyntaxError) : Reading :=
  { s.skip n with errors := s.errors ++ faults, heard := s.heard ++ faults }

theorem past_nil (s : Reading) (n : Nat) : s.past n [] = s.skip n := by
  have h : { s.skip n with errors := (s.skip n).errors, heard := (s.skip n).heard } = s.skip n :=
    rfl
  rwa [skip_errors, skip_heard, ← List.append_nil s.errors, ← List.append_nil s.heard] at h

theorem past_past (s : Reading) (m n : Nat) (faults faults' : List SyntaxError) :
    (s.past m faults).past n faults' = s.past (m + n) (faults ++ faults') := by
  simp only [past, skip_withErrors, skip_skip, List.append_assoc]

@[simp] theorem past_depth (s : Reading) (n : Nat) (faults : List SyntaxError) :
    (s.past n faults).depth = s.depth := skip_depth s n

theorem past_withDepth (s : Reading) (d n : Nat) (faults : List SyntaxError) :
    { s with depth := d }.past n faults = { s.past n faults with depth := d } := by
  rw [past, skip_withDepth]
  rfl

theorem recorded_eq_past (s : Reading) (e : SyntaxError) : Reader.recorded s e = s.past 0 [e] := rfl

theorem Sees.ends (h : s.Sees ts next) : s.Ends := h.1

/-- The tokens ahead, up to the first one of the others. -/
theorem Sees.before (h : s.Sees (ts ++ us) next) : s.Sees ts (us.headD next) := by
  cases us with
  | nil => rwa [List.append_nil] at h
  | cons t us => exact h.left

theorem Sees.current_eq (h : s.Sees ts next) : s.cursor.current = ts.headD next := by
  cases ts with
  | nil => exact h.current_of_nil
  | cons t ts => exact h.current

theorem Sees.past (h : s.Sees (ts ++ us) next) (faults : List SyntaxError) :
    (s.past ts.length faults).Sees us next := h.skip

/-- A token after which there are others does not end the source. -/
theorem Sees.ne_endOfFile {t : Token} (h : s.Sees (t :: ts) next) : t.kind ≠ .endOfFile := by
  obtain ⟨hs, more, hrest⟩ := h
  have hsplit : EndsOnce ([t] ++ (ts ++ next :: more)) := hrest ▸ hs
  exact (hsplit.of_append (by simp)).2 t (by simp)

theorem Sees.index (h : s.Sees ts next) :
    (s.skip ts.length).cursor.index = s.cursor.index + ts.length := by
  induction ts generalizing s with
  | nil => rfl
  | cons t ts ih =>
    have hcurrent : s.cursor.current.kind ≠ .endOfFile := by
      rw [h.current]
      exact h.ne_endOfFile
    rw [skip_cons, ih h.tail, Ends.index_skip_one h.ends hcurrent, List.length_cons]
    omega

end Reading

namespace Reader

open Reading

variable {α β : Type}

/-- The kind of the first of some tokens, or if there are none of the one that comes next. -/
def firstKind (ts : List Token) (next : Kind) : Kind :=
  (ts.head?.map (·.kind)).getD next

theorem firstKind_eq (ts : List Token) (next : Token) :
    (ts.headD next).kind = firstKind ts next.kind := by
  cases ts with
  | nil => rfl
  | cons t ts => rfl

/-- Where these tokens lie ahead, in so many function bodies and with this index of the first
one, and then one of a kind that may follow, the first reader passes them, records these errors
and goes on as the second one. -/
def Leads (d k : Nat) (ts : List Token) (faults : List SyntaxError) (follow : Kind → Prop)
    (p q : Reader α) : Prop :=
  ∀ s next, s.Sees ts next → s.depth = d → s.cursor.index = k → follow next.kind →
    p s = q (s.past ts.length faults)

namespace Leads

variable {d k : Nat} {t : Token} {ts us : List Token} {faults faults' : List SyntaxError}
  {follow follow' : Kind → Prop} {p q r : Reader α} {f : α → Reader β} {a : α}

theorem refl (p : Reader α) : Leads d k [] [] follow p p := by
  intro s next _ _ _ _
  rw [List.length_nil, past_nil, skip_zero]

theorem trans (h : Leads d k ts faults follow p q)
    (h' : Leads d (k + ts.length) us faults' follow' q r)
    (hnext : ∀ kind, follow' kind → follow (firstKind us kind)) :
    Leads d k (ts ++ us) (faults ++ faults') follow' p r := by
  intro s next hsees hd hk hfollow
  have hfirst : follow (us.headD next).kind := by
    rw [firstKind_eq]
    exact hnext _ hfollow
  have hindex : (s.past ts.length faults).cursor.index = k + ts.length := by
    rw [← hk]
    exact hsees.before.index
  rw [h s _ hsees.before hd hk hfirst,
    h' _ next (hsees.past faults) (by rw [past_depth, hd]) hindex hfollow, past_past,
    List.length_append]

theorem bind (h : Leads d k ts faults follow p q) (f : α → Reader β) :
    Leads d k ts faults follow (p >>= f) (q >>= f) := by
  intro s next hsees hd hk hfollow
  have hp := h s next hsees hd hk hfollow
  simp only [Bind.bind, hp]

/-- A reader that finds something, and one that goes on with it. -/
theorem seq (h : Leads d k ts faults follow p (pure a)) {r : Reader β}
    (h' : Leads d (k + ts.length) us faults' follow' (f a) r)
    (hnext : ∀ kind, follow' kind → follow (firstKind us kind)) :
    Leads d k (ts ++ us) (faults ++ faults') follow' (p >>= f) r :=
  (h.bind f).trans h' hnext

/-- A reader that finds something, with nothing left to be passed after it. -/
theorem map (h : Leads d k ts faults follow p (pure a)) (f : α → Reader β) :
    Leads d k ts faults follow (p >>= f) (f a) :=
  h.bind f

/-- One reader after the other, where the second one passes no tokens. -/
theorem andThen (h : Leads d k ts faults follow p q)
    (h' : Leads d (k + ts.length) [] faults' follow' q r)
    (hnext : ∀ kind, follow' kind → follow kind) :
    Leads d k ts (faults ++ faults') follow' p r := by
  have h'' := h.trans h' hnext
  rwa [List.append_nil] at h''

/-- One reader after the other, where the second one does nothing. -/
theorem stop (h : Leads d k ts faults follow p q) (h' : Leads d (k + ts.length) [] [] follow' q r)
    (hnext : ∀ kind, follow' kind → follow kind) : Leads d k ts faults follow' p r := by
  have h'' := h.andThen h' hnext
  rwa [List.append_nil] at h''

theorem of_eq (hp : ∀ s : Reading, s.Ends → p s = q s) (h : Leads d k ts faults follow q r) :
    Leads d k ts faults follow p r := by
  intro s next hsees hd hk hfollow
  rw [hp s hsees.ends]
  exact h s next hsees hd hk hfollow

/-- Two readers that are the same at this token. -/
theorem of_first (hp : ∀ s : Reading, s.Ends → s.cursor.current = t → p s = q s)
    (h : Leads d k (t :: ts) faults follow q r) : Leads d k (t :: ts) faults follow p r := by
  intro s next hsees hd hk hfollow
  rw [hp s hsees.ends hsees.current]
  exact h s next hsees hd hk hfollow

theorem mono (h : Leads d k ts faults follow p q) (hnext : ∀ kind, follow' kind → follow kind) :
    Leads d k ts faults follow' p q :=
  fun s next hsees hd hk hfollow => h s next hsees hd hk (hnext _ hfollow)

/-- The same tokens and errors, written in another way. -/
theorem cast (h : Leads d k ts faults follow p q) (hts : ts = us) (hfaults : faults = faults') :
    Leads d k us faults' follow p q := by
  rwa [hts, hfaults] at h

/-- A reader that passes this token and goes on as another one. -/
theorem after_first (hp : ∀ s : Reading, s.Ends → s.cursor.current = t → p s = q (s.skip 1))
    (h : Leads d (k + 1) ts faults follow q r) : Leads d k (t :: ts) faults follow p r := by
  have hstep : Leads d k [t] [] (fun _ => True) p q := by
    intro s next hsees _ _ _
    rw [hp s hsees.ends hsees.current, past_nil]
    rfl
  exact hstep.trans h fun _ _ => trivial

/-! ### Basic readers -/

section

variable {g : Token → Reader β} {r : Reader β}

/-- A question of which kind the current token is. -/
theorem check {f : Bool → Reader β} {kinds : List Kind} (b : Bool)
    (hb : ∀ kind, follow kind → kinds.contains (firstKind ts kind) = b)
    (h : Leads d k ts faults follow (f b) r) :
    Leads d k ts faults follow (Reader.check kinds >>= f) r := by
  intro s next hsees hd hk hfollow
  rw [check_bind, hsees.current_eq, firstKind_eq, hb _ hfollow]
  exact h s next hsees hd hk hfollow

theorem position {f : Nat → Reader β} (h : Leads d k ts faults follow (f k) r) :
    Leads d k ts faults follow (Reader.position >>= f) r := by
  intro s next hsees hd hk hfollow
  rw [position_bind, hk]
  exact h s next hsees hd hk hfollow

theorem advance (h : Leads d (k + 1) ts faults follow (g t) r) :
    Leads d k (t :: ts) faults follow (Reader.advance >>= g) r :=
  .after_first (fun s _ ht => by rw [advance_bind, ht]) h

theorem report {u : Token} {i : Nat} {fault : SyntaxFault} {f : Unit → Reader β}
    (h : Leads d k ts faults follow (f ()) r) :
    Leads d k ts (⟨u, i, fault⟩ :: faults) follow (Reader.report u i fault >>= f) r := by
  have hstep : Leads d k [] [⟨u, i, fault⟩] (fun _ => True) (Reader.report u i fault >>= f)
      (f ()) := fun _ _ _ _ _ _ => rfl
  exact hstep.trans h fun _ _ => trivial

theorem expect {kind : Kind} {fault : SyntaxFault} (ht : t.kind = kind)
    (h : Leads d (k + 1) ts faults follow (g t) r) :
    Leads d k (t :: ts) faults follow (Reader.expect kind fault >>= g) r :=
  .after_first (fun s _ ht' => by rw [expect_bind, ht', if_pos ht]) h

/-- A reader up to a token of a given kind. -/
theorem upTo {p : Reader α} {f : α → Token → Reader β} {kind : Kind} {fault : SyntaxFault}
    (h : Leads d k ts faults follow p (pure a)) (ht : t.kind = kind) (hfollow : follow kind)
    (h' : Leads d (k + ts.length + 1) us faults' follow' (f a t) r) :
    Leads d k (ts ++ t :: us) (faults ++ faults') follow'
      (p >>= fun a => Reader.expect kind fault >>= f a) r :=
  h.seq (.expect ht h') fun _ _ => by rwa [← ht] at hfollow

/-- A reader up to and with a token of a given kind. -/
theorem upToLast {p : Reader α} {f : α → Token → Reader β} {kind : Kind} {fault : SyntaxFault}
    (h : Leads d k ts faults follow p (pure a)) (ht : t.kind = kind) (hfollow : follow kind) :
    Leads d k (ts ++ [t]) faults follow' (p >>= fun a => Reader.expect kind fault >>= f a)
      (f a t) :=
  (h.upTo ht hfollow (.refl _)).cast rfl (List.append_nil _)

/-- A token of another kind is a fault. -/
theorem expect_fails {kind : Kind} {fault : SyntaxFault} (g : Token → Reader β) :
    Leads d k [] [] (· ≠ kind) (Reader.expect kind fault >>= g) (fail fault) := by
  intro s next hsees _ _ hfollow
  rw [List.length_nil, past_nil, skip_zero, expect_bind, if_neg (by rwa [hsees.current_of_nil]),
    fail_apply]

theorem accept_yes {kind : Kind} {f : Bool → Reader β} (ht : t.kind = kind)
    (h : Leads d (k + 1) ts faults follow (f true) r) :
    Leads d k (t :: ts) faults follow (accept kind >>= f) r :=
  .after_first (fun s _ ht' => by rw [accept_bind, ht', if_pos ht]) h

theorem accept_no {kind : Kind} {f : Bool → Reader β}
    (hno : ∀ next, follow next → firstKind ts next ≠ kind)
    (h : Leads d k ts faults follow (f false) r) :
    Leads d k ts faults follow (accept kind >>= f) r := by
  intro s next hsees hd hk hfollow
  rw [accept_bind, if_neg (by rw [hsees.current_eq, firstKind_eq]; exact hno _ hfollow)]
  exact h s next hsees hd hk hfollow

end

/-! ### Readers around another one -/

theorem inFunction (h : Leads (d + 1) k ts faults follow p q) :
    Leads d k ts faults follow (Reader.inFunction p) (Reader.inFunction q) := by
  intro s next hsees hd hk hfollow
  have hp := h { s with depth := s.depth + 1 } next hsees (by rw [hd]) hk hfollow
  rw [Reader.inFunction, Reader.inFunction, hp, past_withDepth, past_depth]

theorem recovering {p q : Reader Node} (h : Leads d k ts faults follow p q) :
    Leads d k ts faults follow (Reader.recovering p) (Reader.recovering q) := by
  intro s next hsees hd hk hfollow
  rw [Reader.recovering, Reader.recovering, h s next hsees hd hk hfollow]

end Leads

theorem inFunction_pure (a : α) : inFunction (pure a) = pure a := rfl

end Reader

end LoxLang
