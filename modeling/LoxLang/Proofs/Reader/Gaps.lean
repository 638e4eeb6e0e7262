/-
What a missing semicolon costs.

A `Gap` in some declarations is a place, at any depth, where the semicolon of a statement is
missing.  What comes after the statement is not one of the tokens that go on with it, so that it
is blamed; and from there on no more is lost than some of the declarations that come next in the
same list.  Then one error is recorded, and no other one (`gap_costs_one_error`).

* `Reader.Finds` — a reader records so many errors, and finds something;
* `Grammar.Gap` — declarations, and the same tokens without the semicolon;
* `Reader.gap_found` — one error for each gap, by induction on what is around it.

Where a word begins the next statement, what is lost may reach into the middle of it, and there
may be a second error (`lost_word_costs_more`).
-/
import LoxLang.Proofs.Reader.MissingSemicolons
import LoxLang.Proofs.Reader.Resuming
import LoxLang.Proofs.Reader.Segments

namespace LoxLang

namespace Reader

open Grammar Reading

variable {α β : Type} {d m n : Nat} {t : Token} {ts us zs : List Token}
  {follow follow' : Kind → Prop} {p q : Reader α} {stop : Reader Bool} {stops : Kind → Bool}

/-! ### Counting errors -/

/-- Where these tokens lie ahead, in so many function bodies, and then one of a kind that may
follow, the reader passes them, records so many errors, and finds something. -/
def Finds (d n : Nat) (ts : List Token) (follow : Kind → Prop) (p : Reader α) : Prop :=
  ∀ s next, s.Sees ts next → s.depth = d → follow next.kind →
    ∃ a faults, faults.length = n ∧ p s = (pure a : Reader α) (s.past ts.length faults)

namespace Finds

theorem of_leads {a : α} (h : ∀ k, Leads d k ts [] follow p (pure a)) : Finds d 0 ts follow p :=
  fun s next hsees hd hfollow => ⟨a, [], rfl, h _ s next hsees hd rfl hfollow⟩

theorem mono (h : Finds d n ts follow p) (hnext : ∀ kind, follow' kind → follow kind) :
    Finds d n ts follow' p :=
  fun s next hsees hd hfollow => h s next hsees hd (hnext _ hfollow)

/-- The same tokens, written in another way. -/
theorem cast (h : Finds d n ts follow p) (hts : ts = us) : Finds d n us follow p := by
  rwa [hts] at h

/-- A reader that goes on as another one, which finds something. -/
theorem after (h : ∀ k, Leads d k ts [] follow p q) (h' : Finds d n us follow' q)
    (hnext : ∀ kind, follow' kind → follow (firstKind us kind)) :
    Finds d n (ts ++ us) follow' p := by
  intro s next hsees hd hfollow
  have hfirst : follow (us.headD next).kind := by
    rw [firstKind_eq]
    exact hnext _ hfollow
  obtain ⟨a, faults, hfaults, hread⟩ :=
    h' _ next (hsees.past []) ((past_depth s _ _).trans hd) hfollow
  refine ⟨a, faults, hfaults, ?_⟩
  rw [h _ s _ hsees.before hd rfl hfirst, hread, past_past, List.length_append, List.nil_append]

theorem bind {f : α → Reader β} (h : Finds d m ts follow p)
    (h' : ∀ a, Finds d n us follow' (f a))
    (hnext : ∀ kind, follow' kind → follow (firstKind us kind)) :
    Finds d (m + n) (ts ++ us) follow' (p >>= f) := by
  intro s next hsees hd hfollow
  have hfirst : follow (us.headD next).kind := by
    rw [firstKind_eq]
    exact hnext _ hfollow
  obtain ⟨a, faults, hfaults, hread⟩ := h s _ hsees.before hd hfirst
  obtain ⟨b, faults', hfaults', hread'⟩ :=
    h' a _ next (hsees.past faults) ((past_depth s _ _).trans hd) hfollow
  refine ⟨b, faults ++ faults', by rw [List.length_append, hfaults, hfaults'], ?_⟩
  rw [bind_of_ok hread, hread', past_past, List.length_append]

/-- A reader that finds something, and one after it that passes nothing. -/
theorem map {f : α → Reader β} {g : α → β} (h : Finds d n ts follow p)
    (h' : ∀ a k, Leads d k [] [] follow' (f a) (pure (g a)))
    (hnext : ∀ kind, follow' kind → follow kind) : Finds d n ts follow' (p >>= f) := by
  have hbind := h.bind (fun a => of_leads (h' a)) hnext
  rwa [List.append_nil] at hbind

theorem inFunction (h : Finds (d + 1) n ts follow p) :
    Finds d n ts follow (Reader.inFunction p) := by
  intro s next hsees hd hfollow
  obtain ⟨a, faults, hfaults, hread⟩ :=
    h { s with depth := s.depth + 1 } next hsees (by rw [hd]) hfollow
  refine ⟨a, faults, hfaults, ?_⟩
  rw [Reader.inFunction, hread, past_withDepth]
  have hback : { s.past ts.length faults with depth := s.depth + 1 - 1 }
      = s.past ts.length faults := by
    rw [Nat.add_sub_cancel, ← past_depth s ts.length faults]
  exact congrArg (Reply.ok a) hback

theorem recovering {p : Reader Node} (h : Finds d n ts follow p) :
    Finds d n ts follow (Reader.recovering p) := by
  intro s next hsees hd hfollow
  obtain ⟨e, faults, hfaults, hread⟩ := h s next hsees hd hfollow
  exact ⟨some e, faults, hfaults, by rw [Reader.recovering, hread]; rfl⟩

/-- After a fault the rest is lost. -/
theorem lost (fault : SyntaxFault) :
    Finds d 1 zs (Lost zs) (Reader.recovering (fail fault)) := by
  intro s next hsees hd hlost
  refine ⟨none, [faultHere s fault], rfl, ?_⟩
  have hresume : resume (recorded s (faultHere s fault)) = _ := hlost.resume hsees
  rw [Reader.recovering, fail_apply]
  simp only [hresume]
  rw [recorded_eq_past, ← past_nil, past_past, Nat.zero_add, List.append_nil]
  rfl

/-- One declaration, which may have been dropped, and the others. -/
theorem declarations (hstop : EndsBefore stop fun t => stops t.kind) (ht : stops t.kind = false)
    (hfirst : Finds d m (t :: ts) follow declaration)
    (hrest : Finds d n us follow' (Reader.declarations stop))
    (hnext : ∀ kind, follow' kind → follow (firstKind us kind)) :
    Finds d (m + n) (t :: ts ++ us) follow' (Reader.declarations stop) := by
  have hturn : Finds d (m + n) (t :: ts ++ us) follow' (declaration >>= fun first =>
      Reader.declarations stop >>= fun others => pure (first.toList ++ others)) :=
    hfirst.bind (fun _ => hrest.map (fun _ _ => .refl _) fun _ hkind => hkind) hnext
  intro s next hsees hd hfollow
  obtain ⟨a, faults, hfaults, hread⟩ := hturn s next hsees hd hfollow
  refine ⟨a, faults, hfaults, ?_⟩
  rw [declarations_eq hstop hsees.ends, turn, bind_of_ok (hstop.asks s), hsees.current, ht,
    if_neg Bool.false_ne_true]
  exact hread

end Finds

end Reader

/-! ### Gaps -/

namespace Grammar

/-- A gap in a statement: the second tokens are the first ones without the semicolon at the end of
a declaration.  What comes next does not go on with the declaration, and what is lost after it are
some of the declarations that come next in the same list.  After the list comes a token of the
kind `stop`. -/
inductive Gap : Nat → Kind → Form → List Token → List Token → Prop where
  | here (first : Statement d .declaration (ts ++ [semicolon]) e)
      (hsemicolon : semicolon.kind = .semicolon)
      (hoperand : Reader.firstKind (zs ++ us) stop ∉ [Kind.leftParen, .minus])
      (hvalue : ∀ t ∈ ts.getLast?, t.kind = .returnWord →
        Reader.firstKind (zs ++ us) stop ∉ starts)
      (next : Statement d .declarations (zs ++ us) (.many es))
      (hlost : Reader.Lost zs (Reader.firstKind us stop))
      (others : Statement d .declarations us (.many fs)) :
      Gap d stop .declarations (ts ++ semicolon :: (zs ++ us)) (ts ++ (zs ++ us))
  | later (first : Statement d .declaration ts e) (h : Gap d stop .declarations us us') :
      Gap d stop .declarations (ts ++ us) (ts ++ us')
  | inside (h : Gap d stop .declaration us us') (others : Statement d .declarations vs (.many es)) :
      Gap d stop .declarations (us ++ vs) (us' ++ vs)
  | function (hword : word.kind = .funWord) (hname : name.kind = .identifier)
      (hleft : leftParen.kind = .leftParen) (parameters : OptionalParameters ts params)
      (hcount : params.length ≤ maxArguments) (hright : rightParen.kind = .rightParen)
      (hopen : leftBrace.kind = .leftBrace) (body : Gap (d + 1) .rightBrace .declarations us us')
      (hclose : rightBrace.kind = .rightBrace) :
      Gap d stop .declaration
        (word :: name :: leftParen :: ts ++ rightParen :: leftBrace :: (us ++ [rightBrace]))
        (word :: name :: leftParen :: ts ++ rightParen :: leftBrace :: (us' ++ [rightBrace]))
  | statement (h : Gap d stop (.statement ajar) us us') : Gap d stop .declaration us us'
  | ifThen (hword : word.kind = .ifWord) (hleft : leftParen.kind = .leftParen)
      (condition : Expression .expression ts e) (hright : rightParen.kind = .rightParen)
      (thenBranch : Gap d stop (.statement ajar) us us') :
      Gap d stop (.statement true) (word :: leftParen :: ts ++ rightParen :: us)
        (word :: leftParen :: ts ++ rightParen :: us')
  | ifElse (hword : word.kind = .ifWord) (hleft : leftParen.kind = .leftParen)
      (condition : Expression .expression ts e) (hright : rightParen.kind = .rightParen)
      (thenBranch : Gap d stop (.statement false) us us') (helse : elseWord.kind = .elseWord)
      (elseBranch : Statement d (.statement ajar) vs g) :
      Gap d stop (.statement ajar)
        (word :: leftParen :: ts ++ rightParen :: (us ++ elseWord :: vs))
        (word :: leftParen :: ts ++ rightParen :: (us' ++ elseWord :: vs))
  | elseBranch (hword : word.kind = .ifWord) (hleft : leftParen.kind = .leftParen)
      (condition : Expression .expression ts e) (hright : rightParen.kind = .rightParen)
      (thenBranch : Statement d (.statement false) vs f) (helse : elseWord.kind = .elseWord)
      (elseBranch : Gap d stop (.statement ajar) us us') :
      Gap d stop (.statement ajar)
        (word :: leftParen :: ts ++ rightParen :: vs ++ elseWord :: us)
        (word :: leftParen :: ts ++ rightParen :: vs ++ elseWord :: us')
  | whileLoop (hword : word.kind = .whileWord) (hleft : leftParen.kind = .leftParen)
      (condition : Expression .expression ts e) (hright : rightParen.kind = .rightParen)
      (body : Gap d stop (.statement ajar) us us') :
      Gap d stop (.statement ajar) (word :: leftParen :: ts ++ rightParen :: us)
        (word :: leftParen :: ts ++ rightParen :: us')
  | forLoop (hword : word.kind = .forWord) (hleft : leftParen.kind = .leftParen)
      (initializer : Initializer ts e) (condition : Optional vs f)
      (hsemicolon : semicolon.kind = .semicolon) (increment : Optional ws g)
      (hright : rightParen.kind = .rightParen) (body : Gap d stop (.statement ajar) us us') :
      Gap d stop (.statement ajar)
        (word :: leftParen :: ts ++ vs ++ semicolon :: ws ++ rightParen :: us)
        (word :: leftParen :: ts ++ vs ++ semicolon :: ws ++ rightParen :: us')
  | block (hopen : leftBrace.kind = .leftBrace) (body : Gap d .rightBrace .declarations us us')
      (hclose : rightBrace.kind = .rightBrace) :
      Gap d stop (.statement false) (leftBrace :: (us ++ [rightBrace]))
        (leftBrace :: (us' ++ [rightBrace]))

variable {d : Nat} {stop : Kind} {form : Form} {us us' : List Token}

/-- Without the gap there is no fault. -/
theorem Gap.derived (h : Gap d stop form us us') :
    ∃ e, Statement d form us e ∧ (form = .declarations → ∃ es, e = .many es) := by
  induction h with
  | here first _ _ _ next _ _ =>
    have hlist := Statement.moreDeclarations first next
    rw [List.append_assoc] at hlist
    exact ⟨_, hlist, fun _ => ⟨_, rfl⟩⟩
  | later first _ ih =>
    obtain ⟨e, he, hes⟩ := ih
    obtain ⟨es, rfl⟩ := hes rfl
    exact ⟨_, .moreDeclarations first he, fun _ => ⟨_, rfl⟩⟩
  | inside _ others ih =>
    obtain ⟨e, he, -⟩ := ih
    exact ⟨_, .moreDeclarations he others, fun _ => ⟨_, rfl⟩⟩
  | function hword hname hleft hparams hcount hright hopen _ hclose ih =>
    obtain ⟨e, he, hes⟩ := ih
    obtain ⟨es, rfl⟩ := hes rfl
    have hfunction := Statement.function hword hname hleft hparams hcount hright hopen he hclose
    exact ⟨_, by simpa using hfunction, nofun⟩
  | statement _ ih =>
    obtain ⟨e, he, -⟩ := ih
    exact ⟨e, .statement he, nofun⟩
  | ifThen hword hleft he hright _ ih =>
    obtain ⟨f, hf, -⟩ := ih
    exact ⟨_, .ifThen hword hleft he hright hf, nofun⟩
  | ifElse hword hleft he hright _ helse hg ih =>
    obtain ⟨f, hf, -⟩ := ih
    have hif := Statement.ifElse hword hleft he hright hf helse hg
    exact ⟨_, by simpa using hif, nofun⟩
  | elseBranch hword hleft he hright hf helse _ ih =>
    obtain ⟨g, hg, -⟩ := ih
    exact ⟨_, .ifElse hword hleft he hright hf helse hg, nofun⟩
  | whileLoop hword hleft he hright _ ih =>
    obtain ⟨f, hf, -⟩ := ih
    exact ⟨_, .whileLoop hword hleft he hright hf, nofun⟩
  | forLoop hword hleft he hf hsemicolon hg hright _ ih =>
    obtain ⟨h, hh, -⟩ := ih
    exact ⟨_, .forLoop hword hleft he hf hsemicolon hg hright hh, nofun⟩
  | block hopen _ hclose ih =>
    obtain ⟨e, he, hes⟩ := ih
    obtain ⟨es, rfl⟩ := hes rfl
    exact ⟨_, .block hopen he hclose, nofun⟩

/-- The second tokens are the first ones without one semicolon. -/
def Misses (us us' : List Token) : Prop :=
  ∃ before semicolon after, semicolon.kind = .semicolon ∧ us = before ++ semicolon :: after ∧
    us' = before ++ after

theorem Misses.append_left (ts : List Token) (h : Misses us us') :
    Misses (ts ++ us) (ts ++ us') := by
  obtain ⟨before, semicolon, after, hsemicolon, rfl, rfl⟩ := h
  exact ⟨ts ++ before, semicolon, after, hsemicolon, by simp, by simp⟩

theorem Misses.append_right (ts : List Token) (h : Misses us us') :
    Misses (us ++ ts) (us' ++ ts) := by
  obtain ⟨before, semicolon, after, hsemicolon, rfl, rfl⟩ := h
  exact ⟨before, semicolon, after ++ ts, hsemicolon, by simp, by simp⟩

theorem Misses.cons (t : Token) (h : Misses us us') : Misses (t :: us) (t :: us') :=
  h.append_left [t]

theorem Gap.misses (h : Gap d stop form us us') : Misses us us' := by
  induction h with
  | here _ hsemicolon => exact ⟨_, _, _, hsemicolon, rfl, rfl⟩
  | later _ _ ih => exact ih.append_left _
  | inside _ _ ih => exact ih.append_right _
  | function _ _ _ _ _ _ _ _ _ ih => exact .append_left _ (.cons _ (.cons _ (ih.append_right _)))
  | statement _ ih => exact ih
  | ifElse _ _ _ _ _ _ _ ih => exact .append_left _ (.cons _ (ih.append_right _))
  | ifThen _ _ _ _ _ ih | elseBranch _ _ _ _ _ _ _ ih | whileLoop _ _ _ _ _ ih
  | forLoop _ _ _ _ _ _ _ _ ih => exact .append_left _ (.cons _ ih)
  | block _ _ _ ih => exact .cons _ (ih.append_right _)

/-- With the gap, the first token is still the one of a declaration. -/
theorem Gap.first (h : Gap d stop form us us') : ∃ t rest, us' = t :: rest ∧
    t.kind ∈ declarationStarts ∧ ∀ ajar, form = .statement ajar → t.kind ∈ statementStarts := by
  have start {t : Token} {rest : List Token} {kind : Kind} {form : Form} (ht : t.kind = kind)
      (hkind : kind ∈ statementStarts) : ∃ t' rest', t :: rest = t' :: rest' ∧
        t'.kind ∈ declarationStarts ∧
          ∀ ajar, form = .statement ajar → t'.kind ∈ statementStarts := by
    have hsub : statementStarts ⊆ declarationStarts := by decide
    rw [← ht] at hkind
    exact ⟨t, rest, rfl, hsub hkind, fun _ _ => hkind⟩
  induction h with
  | here first hsemicolon =>
    obtain ⟨t, rest, rfl, ht, -⟩ := Reader.first_of_ended first (by simp) hsemicolon
    exact ⟨t, _, rfl, ht, nofun⟩
  | later first _ _ =>
    obtain ⟨t, rest, rfl, ht, -⟩ := first.first (by simp)
    exact ⟨t, _, rfl, ht, nofun⟩
  | inside _ _ ih =>
    obtain ⟨t, rest, rfl, ht, -⟩ := ih
    exact ⟨t, _, rfl, ht, nofun⟩
  | function hword => exact ⟨_, _, rfl, by simp [hword, declarationStarts], nofun⟩
  | statement _ ih =>
    obtain ⟨t, rest, rfl, ht, -⟩ := ih
    exact ⟨t, rest, rfl, ht, nofun⟩
  | ifThen hword | ifElse hword | elseBranch hword | whileLoop hword | forLoop hword
  | block hword => exact start hword (by decide)

theorem Statement.firstKind_ne_else {kind : Kind} {es : List Node}
    (h : Statement d .declarations us (.many es)) (hkind : kind ≠ .elseWord) :
    Reader.firstKind us kind ≠ .elseWord := by
  cases h with
  | noDeclaration => exact hkind
  | moreDeclarations first _ =>
    obtain ⟨t, rest, rfl, ht, -⟩ := first.first (by simp)
    have hstarts : ∀ kind ∈ declarationStarts, kind ≠ .elseWord := by decide
    exact hstarts _ ht

end Grammar

namespace Reader

open Grammar

variable {d n : Nat} {next : Kind} {ts us us' vs ws zs : List Token} {e f g : Node}
  {es fs : List Node} {params : List Mark} {ajar : Bool} {form : Form}
  {name leftParen rightParen leftBrace rightBrace word elseWord semicolon : Token}

theorem firstKind_append (ts us : List Token) (next : Kind) :
    firstKind (ts ++ us) next = firstKind ts (firstKind us next) := by
  cases ts with
  | nil => rfl
  | cons t ts => rfl

/-- The reader of this sort of statement finds something, after one error. -/
@[reducible] def OneFault (d : Nat) (next : Kind) : Form → List Token → Prop
  | .declarations, us => ∀ (stop : Reader Bool) (stops : Kind → Bool),
    EndsBefore stop (fun t => stops t.kind) → (∀ kind ∈ declarationStarts, stops kind = false) →
      stops next = true → next ≠ .elseWord → Finds d 1 us (· = next) (declarations stop)
  | .declaration, us => Finds d 1 us (· ≠ .elseWord) declaration
  | .statement ajar, us => Finds d 1 us (fun kind => ajar = true → kind ≠ .elseWord) statement

/-- Declarations without faults, as the last ones of a list. -/
theorem finds_others (others : Statement d .declarations us (.many es)) {stop : Reader Bool}
    {stops : Kind → Bool} (hstop : EndsBefore stop fun t => stops t.kind)
    (hstarts : ∀ kind ∈ declarationStarts, stops kind = false) (hstops : stops next = true)
    (helse : next ≠ .elseWord) : Finds d 0 us (· = next) (declarations stop) := by
  refine .of_leads fun _ => (Leads.of_declarations others hstop hstarts).mono ?_
  rintro _ rfl
  exact ⟨hstops, helse⟩

/-- What comes after the gap begins a declaration, or ends the source. -/
theorem breaks_of_next (hoperand : firstKind (zs ++ us) next ∉ [Kind.leftParen, .minus])
    (hvalue : ∀ t ∈ ts.getLast?, t.kind = .returnWord → firstKind (zs ++ us) next ∉ starts)
    (hnext : Statement d .declarations (zs ++ us) (.many es))
    (hlost : Lost zs (firstKind us next)) : Breaks ts (firstKind (zs ++ us) next) := by
  refine ⟨?_, hoperand, hvalue⟩
  generalize hlist : zs ++ us = vs at hnext
  cases hnext with
  | noDeclaration =>
    obtain ⟨rfl, rfl⟩ := List.append_eq_nil_iff.mp hlist
    have hend : next = .endOfFile := (hlost.ends.resolve_left (by simp)).2 rfl
    rw [hend]
    decide
  | moreDeclarations first _ =>
    obtain ⟨t, rest, rfl, ht, -⟩ := first.first (by simp)
    exact List.mem_cons_of_mem _ ht

theorem OneFault.here (first : Statement d .declaration (ts ++ [semicolon]) e)
    (hsemicolon : semicolon.kind = .semicolon)
    (hoperand : firstKind (zs ++ us) next ∉ [Kind.leftParen, .minus])
    (hvalue : ∀ t ∈ ts.getLast?, t.kind = .returnWord → firstKind (zs ++ us) next ∉ starts)
    (hnext : Statement d .declarations (zs ++ us) (.many es)) (hlost : Lost zs (firstKind us next))
    (others : Statement d .declarations us (.many fs)) :
    OneFault d next .declarations (ts ++ (zs ++ us)) := by
  intro stop stops hstop hstarts hstops helse
  obtain ⟨fault, hgivenUp⟩ := breaking first rfl hsemicolon
  -- The declaration is given up at what comes next, which is lost.
  have hfirst : Finds d 1 (ts ++ zs) (· = firstKind us next) declaration := by
    refine .after hgivenUp ((Finds.lost fault).mono ?_) ?_
    · rintro _ rfl
      exact hlost
    · rintro _ rfl
      rw [← firstKind_append]
      exact breaks_of_next hoperand hvalue hnext hlost
  obtain ⟨t, rest, rfl, ht, -⟩ := first_of_ended first (by simp) hsemicolon
  rw [← List.append_assoc]
  refine Finds.declarations hstop (hstarts _ ht) hfirst
    (finds_others others hstop hstarts hstops helse) ?_
  rintro _ rfl
  rfl

theorem OneFault.later (first : Statement d .declaration ts e)
    (h : Gap d next .declarations us us') (ih : OneFault d next .declarations us') :
    OneFault d next .declarations (ts ++ us') := by
  intro stop stops hstop hstarts hstops helse
  obtain ⟨t, rest, rfl, ht, -⟩ := first.first (by simp)
  have hfirst : Finds d 0 (t :: rest) (· ≠ .elseWord) declaration :=
    .of_leads fun _ => .of_declaration first
  refine hfirst.declarations hstop (hstarts _ ht) (ih stop stops hstop hstarts hstops helse) ?_
  rintro _ -
  obtain ⟨u, us, rfl, hu, -⟩ := h.first
  have hkinds : ∀ kind ∈ declarationStarts, kind ≠ .elseWord := by decide
  exact hkinds _ hu

theorem OneFault.inside (h : Gap d next .declaration us us') (ih : OneFault d next .declaration us')
    (others : Statement d .declarations vs (.many es)) :
    OneFault d next .declarations (us' ++ vs) := by
  intro stop stops hstop hstarts hstops helse
  obtain ⟨t, rest, rfl, ht, -⟩ := h.first
  refine Finds.declarations hstop (hstarts _ ht) ih
    (finds_others others hstop hstarts hstops helse) ?_
  rintro _ rfl
  exact others.firstKind_ne_else helse

theorem OneFault.blockBody {follow : Kind → Prop} (ih : OneFault d .rightBrace .declarations us')
    (hclose : rightBrace.kind = .rightBrace) :
    Finds d 1 (us' ++ [rightBrace]) follow (Reader.blockBody declaration) := by
  have hstarts : ∀ kind ∈ declarationStarts,
      ([Kind.rightBrace].contains kind || kind == .endOfFile) = false := by decide
  have hstatements := ih atBlockEnd (fun kind => [Kind.rightBrace].contains kind ||
    kind == .endOfFile) endsBefore_blockEnd hstarts (by decide) (by decide)
  have hbrace (es : List Node) : Finds d 0 [rightBrace] follow
      (expect .rightBrace .braceAfterBlock >>= fun _ => pure es) :=
    .of_leads fun _ => .expect hclose (.refl _)
  exact hstatements.bind hbrace fun _ _ => hclose

theorem OneFault.function (hword : word.kind = .funWord) (hname : name.kind = .identifier)
    (hleft : leftParen.kind = .leftParen) (hparams : OptionalParameters ts params)
    (hcount : params.length ≤ maxArguments) (hright : rightParen.kind = .rightParen)
    (hopen : leftBrace.kind = .leftBrace) (ih : OneFault (d + 1) .rightBrace .declarations us')
    (hclose : rightBrace.kind = .rightBrace) :
    OneFault d next .declaration
      (word :: name :: leftParen :: ts ++ rightParen :: leftBrace :: (us' ++ [rightBrace])) := by
  have hfront (k : Nat) : Leads d k (word :: name :: leftParen :: (ts ++ [rightParen, leftBrace]))
      [] (fun _ => True) declaration (Reader.recovering (Reader.inFunction
        (Reader.blockBody declaration) >>= fun es => pure (.function name.mark params es))) :=
    .declaration_function hword (.expect hname (.expect hleft
      ((Leads.of_parameters hparams hcount).upTo hright rfl (.expect hopen (.refl _)))))
  have hbody : Finds (d + 1) 1 (us' ++ [rightBrace]) (· ≠ .elseWord)
      (Reader.blockBody declaration) := ih.blockBody hclose
  -- The fault is dealt with inside the body, so that the function itself is found.
  have hfound := (hbody.inFunction.map
    (fun es _ => .refl (pure (Node.function name.mark params es))) fun _ hkind => hkind).recovering
  exact (Finds.after hfront hfound fun _ _ => trivial).cast (by simp)

theorem OneFault.statement (h : Gap d next (.statement ajar) us us')
    (ih : OneFault d next (.statement ajar) us') : OneFault d next .declaration us' := by
  obtain ⟨t, rest, rfl, -, ht⟩ := h.first
  have hstatement : Finds d 1 (t :: rest) (· ≠ .elseWord) Reader.statement :=
    ih.mono fun _ hkind _ => hkind
  intro s next' hsees hd hnext
  have hcurrent : s.cursor.current.kind ∈ statementStarts := by
    rw [hsees.current]
    exact ht _ rfl
  obtain ⟨a, faults, hfaults, hread⟩ := hstatement s next' hsees hd hnext
  refine ⟨some a, faults, hfaults, ?_⟩
  rw [declaration_eq hsees.ends]
  exact recovering_of_ok ((declarationStep_of_statement hcurrent).trans hread)

/-- A conditional, from its first branch on. -/
theorem OneFault.afterIf (hword : word.kind = .ifWord) (hleft : leftParen.kind = .leftParen)
    (he : Expression .expression ts e) (hright : rightParen.kind = .rightParen)
    {follow : Kind → Prop} (h : Finds d 1 us' follow (Reader.statement >>= fun f =>
      orMissing .elseWord Reader.statement >>= fun g => pure (Node.branch e f g))) :
    Finds d 1 (word :: leftParen :: ts ++ rightParen :: us') follow Reader.statement := by
  have hif (k : Nat) : Leads d k (word :: leftParen :: ts ++ [rightParen]) [] (fun _ => True)
      Reader.statement (Reader.statement >>= fun f => orMissing .elseWord Reader.statement >>=
        fun g => pure (Node.branch e f g)) :=
    .statement_if hword (.ifFrom hleft (readsExpression_of_derived he) hright (.refl _))
  exact (Finds.after hif h fun _ _ => trivial).cast (by simp)

theorem OneFault.ifThen (hword : word.kind = .ifWord) (hleft : leftParen.kind = .leftParen)
    (he : Expression .expression ts e) (hright : rightParen.kind = .rightParen)
    (ih : OneFault d next (.statement ajar) us') :
    OneFault d next (.statement true) (word :: leftParen :: ts ++ rightParen :: us') := by
  have hnone (f : Node) (k : Nat) : Leads d k [] [] (· ≠ .elseWord)
      (orMissing .elseWord Reader.statement >>= fun g => pure (Node.branch e f g))
      (pure (.branch e f .missing)) := Leads.orMissing_absent.bind _
  have hbody : Finds d 1 us' (· ≠ .elseWord) (Reader.statement >>= fun f =>
      orMissing .elseWord Reader.statement >>= fun g => pure (Node.branch e f g)) :=
    Finds.map ih hnone fun _ hkind _ => hkind
  exact afterIf hword hleft he hright (hbody.mono fun _ hkind => hkind rfl)

theorem OneFault.ifElse (hword : word.kind = .ifWord) (hleft : leftParen.kind = .leftParen)
    (he : Expression .expression ts e) (hright : rightParen.kind = .rightParen)
    (ih : OneFault d next (.statement false) us') (helse : elseWord.kind = .elseWord)
    (hg : Statement d (.statement ajar) vs g) :
    OneFault d next (.statement ajar)
      (word :: leftParen :: ts ++ rightParen :: (us' ++ elseWord :: vs)) := by
  have helseBranch (f : Node) : Finds d 0 (elseWord :: vs)
      (fun kind => ajar = true → kind ≠ .elseWord)
      (orMissing .elseWord Reader.statement >>= fun g => pure (Node.branch e f g)) :=
    .of_leads fun _ => (Leads.orMissing_present helse (.of_statement hg)).bind _
  exact afterIf hword hleft he hright (Finds.bind ih helseBranch (by simp))

theorem OneFault.elseBranch (hword : word.kind = .ifWord) (hleft : leftParen.kind = .leftParen)
    (he : Expression .expression ts e) (hright : rightParen.kind = .rightParen)
    (hf : Statement d (.statement false) vs f) (helse : elseWord.kind = .elseWord)
    (ih : OneFault d next (.statement ajar) us') :
    OneFault d next (.statement ajar)
      (word :: leftParen :: ts ++ rightParen :: vs ++ elseWord :: us') := by
  -- The first branch is closed, so that the `else` is the one of this conditional.
  have hif (k : Nat) : Leads d k (vs ++ [elseWord]) [] (fun _ => True)
      (Reader.statement >>= fun f => orMissing .elseWord Reader.statement >>= fun g =>
        pure (Node.branch e f g)) (Reader.statement >>= fun g => pure (Node.branch e f g)) :=
    (Leads.of_statement hf).seq ((Leads.orMissing_present helse (.refl _)).bind _) (by simp)
  have hbody := Finds.map ih (fun g _ => .refl (pure (Node.branch e f g))) fun _ hkind => hkind
  have hread := afterIf hword hleft he hright (Finds.after hif hbody fun _ _ => trivial)
  exact hread.cast (by simp)

theorem OneFault.whileLoop (hword : word.kind = .whileWord) (hleft : leftParen.kind = .leftParen)
    (he : Expression .expression ts e) (hright : rightParen.kind = .rightParen)
    (ih : OneFault d next (.statement ajar) us') :
    OneFault d next (.statement ajar) (word :: leftParen :: ts ++ rightParen :: us') := by
  have hwhile (k : Nat) : Leads d k (word :: leftParen :: ts ++ [rightParen]) [] (fun _ => True)
      Reader.statement (Reader.statement >>= fun f => pure (Node.loop e f)) :=
    .statement_while hword (.whileFrom hleft (readsExpression_of_derived he) hright (.refl _))
  have hbody := Finds.map ih (fun f _ => .refl (pure (Node.loop e f))) fun _ hkind => hkind
  exact (Finds.after hwhile hbody fun _ _ => trivial).cast (by simp)

theorem OneFault.forLoop (hword : word.kind = .forWord) (hleft : leftParen.kind = .leftParen)
    (he : Initializer ts e) (hf : Optional vs f) (hsemicolon : semicolon.kind = .semicolon)
    (hg : Optional ws g) (hright : rightParen.kind = .rightParen)
    (ih : OneFault d next (.statement ajar) us') :
    OneFault d next (.statement ajar)
      (word :: leftParen :: ts ++ vs ++ semicolon :: ws ++ rightParen :: us') := by
  have hfor (k : Nat) : Leads d k (word :: leftParen :: ts ++ vs ++ semicolon :: ws ++ [rightParen])
      [] (fun _ => True) Reader.statement
      (Reader.statement >>= fun body => pure (Reader.forLoop e f g body)) :=
    .statement_for hword (.forFrom hleft (.of_initializer he) (.of_optional hf (by decide))
      hsemicolon (.of_optional hg (by decide)) hright (.refl _))
  have hbody := Finds.map ih (fun body _ => .refl (pure (Reader.forLoop e f g body)))
    fun _ hkind => hkind
  exact (Finds.after hfor hbody fun _ _ => trivial).cast (by simp)

theorem OneFault.block (hopen : leftBrace.kind = .leftBrace)
    (ih : OneFault d .rightBrace .declarations us') (hclose : rightBrace.kind = .rightBrace) :
    OneFault d next (.statement false) (leftBrace :: (us' ++ [rightBrace])) := by
  have hfront (k : Nat) : Leads d k [leftBrace] [] (fun _ => True) Reader.statement
      (Reader.blockBody declaration >>= fun es => pure (Node.block es)) :=
    .of_first (fun _ hs ht => (statement_eq hs).trans (Leads.statementStep_block (ht ▸ hopen)))
      (.advance (.refl _))
  have hbody : Finds d 1 (us' ++ [rightBrace]) (fun kind => false = true → kind ≠ .elseWord)
      (Reader.blockBody declaration) := ih.blockBody hclose
  have hfound := hbody.map (fun es _ => .refl (pure (Node.block es))) fun _ hkind => hkind
  exact Finds.after hfront hfound fun _ _ => trivial

/-- A gap costs one error, wherever it is. -/
theorem gap_found (h : Gap d next form us us') : OneFault d next form us' := by
  induction h with
  | here first hsemicolon hoperand hvalue hnext hlost others =>
    exact .here first hsemicolon hoperand hvalue hnext hlost others
  | later first h ih => exact .later first h ih
  | inside h others ih => exact .inside h ih others
  | function hword hname hleft hparams hcount hright hopen _ hclose ih =>
    exact .function hword hname hleft hparams hcount hright hopen ih hclose
  | statement h ih => exact .statement h ih
  | ifThen hword hleft he hright _ ih => exact .ifThen hword hleft he hright ih
  | ifElse hword hleft he hright _ helse hg ih => exact .ifElse hword hleft he hright ih helse hg
  | elseBranch hword hleft he hright hf helse _ ih =>
    exact .elseBranch hword hleft he hright hf helse ih
  | whileLoop hword hleft he hright _ ih => exact .whileLoop hword hleft he hright ih
  | forLoop hword hleft he hf hsemicolon hg hright _ ih =>
    exact .forLoop hword hleft he hf hsemicolon hg hright ih
  | block hopen _ hclose ih => exact .block hopen ih hclose

end Reader

/-- A list of declarations is read without an error, and with a gap it is read with one error.
The gap is a semicolon that is missing. -/
theorem gap_costs_one_error {ts us : List Token} {last : Token} (hlast : last.kind = .endOfFile)
    (h : Grammar.Gap 0 .endOfFile .declarations ts us) :
    (∃ before semicolon after, semicolon.kind = .semicolon ∧
        ts = before ++ semicolon :: after ∧ us = before ++ after) ∧
      (Program.ofTokens (ts ++ [last])).errors = [] ∧
        (Program.ofTokens (us ++ [last])).errors.length = 1 := by
  obtain ⟨e, he, hes⟩ := h.derived
  obtain ⟨es, rfl⟩ := hes rfl
  obtain ⟨before, semicolon, after, hsemicolon, rfl, rfl⟩ := h.misses
  have hgoOn := he.goOn
  rw [Grammar.goOn_append, Grammar.goOn_cons] at hgoOn
  refine ⟨⟨before, semicolon, after, hsemicolon, rfl, rfl⟩, ?_, ?_⟩
  · have hends : EndsOnce (before ++ semicolon :: after ++ [last]) := ⟨_, last, rfl, hlast, he.goOn⟩
    rw [Program.ofTokens_eq hends (.intro he hlast)]
  · have hends : EndsOnce (before ++ after ++ [last]) :=
      ⟨_, last, rfl, hlast, Grammar.goOn_append.mpr ⟨hgoOn.1, hgoOn.2.2⟩⟩
    obtain ⟨s, hsees, hd, -, hprogram⟩ := Program.exists_start hends
    have hstarts : ∀ kind ∈ Grammar.declarationStarts, Reader.endsProgram kind = false := by decide
    obtain ⟨found, faults, hfaults, hread⟩ := Reader.gap_found h Reader.atEnd Reader.endsProgram
      Reader.endsBefore_endsProgram hstarts rfl (by decide) s last hsees hd hlast
    rw [hprogram found faults hread, hfaults]

/-- In `\x7b print a b; c; \x7d` a semicolon is missing, and the statement `b;` is lost. -/
theorem gap_costs_one_error_of_block :
    let a := tokenIn 9 .identifier "a"
    let b := tokenIn 12 .identifier "b"
    let c := tokenIn 15 .identifier "c"
    let after := [b, tokenIn 13 .semicolon ";", c, tokenIn 16 .semicolon ";",
      tokenIn 18 .rightBrace "\x7d"]
    let before := [tokenIn 1 .leftBrace "\x7b", tokenIn 3 .printWord "print", a]
    let last := tokenIn 19 .endOfFile ""
    Grammar.Gap 0 .endOfFile .declarations (before ++ tokenIn 10 .semicolon ";" :: after)
        (before ++ after) ∧
      (Program.ofTokens (before ++ after ++ [last])).errors.length = 1 := by
  intro a b c after before last
  have hname {t : Token} (semicolon : Token) (ht : t.kind = .identifier)
      (hsemicolon : semicolon.kind = .semicolon) :
      Grammar.Statement 0 .declaration ([t] ++ [semicolon]) (.evaluate (.reference t.mark)) :=
    .statement (.expression (.ofName ht) hsemicolon)
  have hprint : Grammar.Statement 0 .declaration
      ([tokenIn 3 .printWord "print", a] ++ [tokenIn 10 .semicolon ";"])
      (.print (.reference a.mark)) := .statement (.print rfl (.ofName rfl) rfl)
  have hlast : Grammar.Statement 0 .declarations ([c] ++ [tokenIn 16 .semicolon ";"] ++ [])
      (.many [.evaluate (.reference c.mark)]) :=
    .moreDeclarations (hname _ rfl rfl) .noDeclaration
  have hnext : Grammar.Statement 0 .declarations
      ([b, tokenIn 13 .semicolon ";"] ++ [c, tokenIn 16 .semicolon ";"])
      (.many [.evaluate (.reference b.mark), .evaluate (.reference c.mark)]) :=
    .moreDeclarations (hname _ rfl rfl) hlast
  have hlost : Reader.Lost [b, tokenIn 13 .semicolon ";"] .identifier :=
    ⟨by decide, by decide, .inl ⟨_, rfl, rfl⟩⟩
  have hgap : Grammar.Gap 0 .rightBrace .declarations _ _ :=
    .here hprint rfl (by decide) (by decide) hnext hlost hlast
  have hblock : Grammar.Gap 0 .endOfFile (.statement false)
      (tokenIn 1 .leftBrace "\x7b" :: (_ ++ [tokenIn 18 .rightBrace "\x7d"]))
      (tokenIn 1 .leftBrace "\x7b" :: (_ ++ [tokenIn 18 .rightBrace "\x7d"])) :=
    .block rfl hgap rfl
  have hprogram : Grammar.Gap 0 .endOfFile .declarations (_ ++ []) (_ ++ []) :=
    .inside (.statement hblock) .noDeclaration
  have hend : last.kind = .endOfFile := rfl
  exact ⟨hprogram, (gap_costs_one_error hend hprogram).2.2⟩

/-- In `print 1; fun f() \x7b print 2; \x7d` the first semicolon is missing.  The word `fun` is
blamed and passed, so that the brace at the end has no function to close, and there is a second
error. -/
theorem lost_word_costs_more :
    let tokens := tokensOf "print 1; fun f() \x7b print 2; \x7d"
    kindAt tokens 2 = some .semicolon ∧ (Program.ofTokens tokens).errors.length = 0 ∧
      (Program.ofTokens (tokens.eraseIdx 2)).errors.length = 2 := by
  decide +kernel

end LoxLang
