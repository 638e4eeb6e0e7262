/-
Where reading goes on after a fault.

A declaration with a fault is given up at the token that is blamed (`Reading.AtFault`), and
dropped.  Reading goes on at the first place from there where a statement may begin: after a
semicolon, in front of a word that begins a statement, or at the end of the source.  The blamed
token is passed first, whatever it is.

* `Reader.declarationStep_givesUp` — what is given up ends with an error at the current token;
* `Reader.resume_isLeast` — the place where reading goes on, as an index into the tokens;
* `resumes_at_boundary` — both together, with the tokens for which it makes no difference that
  the blamed one is passed.
-/
import LoxLang.Proofs.Reader.Conduct
import Mathlib.Order.Bounds.Basic

namespace LoxLang

/-! ### Giving up -/

/-- The last error is of the current token, and what is being read is given up because of it. -/
def Reading.AtFault (s : Reading) : Prop :=
  ∃ earlier fault, fault.unwinds = true ∧ s.errors = earlier ++ [Reader.faultHere s fault]

namespace Reader

/-- Giving up is the only thing that is asked about. -/
instance : Reading.Recovery (fun _ _ => True) (fun _ s' => s'.AtFault) where
  refl _ := trivial
  trans _ _ := trivial
  after _ h := h
  next _ := trivial
  noted _ _ _ := trivial
  fault s fault h := ⟨s.errors, fault, h, rfl⟩
  resumed _ := trivial
  withDepth _ _ := trivial
  fault_withDepth _ h := h

/-- A declaration is given up at the token of its last error. -/
theorem declarationStep_givesUp {n : Nat} {s s' : Reading}
    (h : declarationStep (declarationUpTo n) (statementUpTo n) s = .failed s') : s'.AtFault :=
  have hupTo := statements_upTo_keep (R := fun _ _ => True) (F := fun _ s' => s'.AtFault) n
  (declarationStep_keeps hupTo.1 hupTo.2).of_failed h

end Reader

/-! ### Places in a list of tokens -/

/-- The kind of the token with this index. -/
def kindAt (tokens : List Token) (i : Nat) : Option Kind := tokens[i]?.map (·.kind)

/-- The current token is the one of these tokens with the index that has been counted. -/
def Reading.StandsIn (tokens : List Token) (s : Reading) : Prop :=
  tokens.drop s.cursor.index = s.rest

namespace Reading.StandsIn

variable {tokens : List Token} {s : Reading}

theorem getElem? (h : s.StandsIn tokens) :
    tokens[s.cursor.index]? = some s.cursor.current := by
  rw [← List.head?_drop, h, rest, List.head?_cons]

theorem kindAt (h : s.StandsIn tokens) :
    kindAt tokens s.cursor.index = some s.cursor.current.kind := by
  rw [LoxLang.kindAt, h.getElem?, Option.map_some]

theorem ends (h : s.StandsIn tokens) (htokens : EndsOnce tokens) : s.Ends := by
  rw [← List.take_append_drop s.cursor.index tokens, h] at htokens
  exact (htokens.of_append s.rest_ne_nil).1

theorem skip_one (h : s.StandsIn tokens) (htokens : EndsOnce tokens)
    (hend : s.cursor.isAtEnd = false) :
    (s.skip 1).StandsIn tokens ∧ (s.skip 1).cursor.index = s.cursor.index + 1 := by
  have hcurrent : s.cursor.current.kind ≠ .endOfFile := by simpa [Cursor.isAtEnd] using hend
  have hrest := rest_skip_one (h.ends htokens) hcurrent
  have hindex := (h.ends htokens).index_skip_one hcurrent
  refine ⟨?_, hindex⟩
  rw [StandsIn, hindex, ← List.drop_drop, h, hrest, List.drop_one, List.tail_cons]

/-- Moving on counts the tokens that are passed, up to the one that ends the source. -/
theorem skip (h : s.StandsIn tokens) (htokens : EndsOnce tokens) {n : Nat}
    (hn : ∀ i < n, (s.skip i).cursor.isAtEnd = false) :
    (s.skip n).StandsIn tokens ∧ (s.skip n).cursor.index = s.cursor.index + n := by
  induction n with
  | zero => exact ⟨h, rfl⟩
  | succ n ih =>
    obtain ⟨hstands, hindex⟩ := ih fun i hi => hn i (by omega)
    obtain ⟨hstands', hindex'⟩ := hstands.skip_one htokens (hn n (by omega))
    rw [skip_skip] at hstands' hindex'
    exact ⟨hstands', by rw [hindex', hindex, Nat.add_assoc]⟩

end Reading.StandsIn

/-- A statement may begin here after a fault of the token with index `i`: the source ends, a
semicolon after the fault has been passed, or a word comes that begins a statement. -/
def Boundary (tokens : List Token) (i j : Nat) : Prop :=
  kindAt tokens j = some .endOfFile ∨ (i < j ∧ kindAt tokens (j - 1) = some .semicolon) ∨
    ∃ word ∈ Reader.statementWords, kindAt tokens j = some word

theorem boundary_self {tokens : List Token} {i : Nat} {kind : Kind}
    (hkind : kindAt tokens i = some kind) :
    Boundary tokens i i ↔ kind = .endOfFile ∨ kind ∈ Reader.statementWords := by
  simp [Boundary, hkind]

namespace Reader

open Reading

variable {tokens : List Token} {s s' : Reading}

/-- After the token with the fault, the places of the tokens are those that are asked for. -/
theorem atBoundary_iff (hs : s.StandsIn tokens) (htokens : EndsOnce tokens) {n : Nat}
    (hn : ∀ i ≤ n, (s.skip i).cursor.isAtEnd = false) :
    (s.skip (n + 1)).atBoundary = true ↔
      Boundary tokens s.cursor.index (s.cursor.index + (n + 1)) := by
  obtain ⟨hstands, hindex⟩ := hs.skip htokens (n := n) fun i hi => hn i (by omega)
  obtain ⟨hstands', hindex'⟩ := hs.skip htokens (n := n + 1) fun i hi => hn i (by omega)
  have hprevious := hstands.kindAt
  have hcurrent := hstands'.kindAt
  rw [hindex] at hprevious
  rw [hindex'] at hcurrent
  have hindices : s.cursor.index + (n + 1) - 1 = s.cursor.index + n := by omega
  rw [Boundary, hindices, hprevious, hcurrent]
  cases hend : (s.skip (n + 1)).cursor.isAtEnd with
  | true => simp [atBoundary, hend, isAtEnd_iff.mp hend]
  | false =>
    have hne : (s.skip (n + 1)).cursor.current.kind ≠ .endOfFile := by
      simpa [Cursor.isAtEnd] using hend
    simp [atBoundary, hend, hne, previous_skip s n hend, Cursor.check]

/-- Reading goes on at the first place where a statement may begin; the token with the fault is
passed, unless it ends the source. -/
theorem resume_isLeast (hs : s.StandsIn tokens) (htokens : EndsOnce tokens) :
    ∃ s', resume s = .ok () s' ∧ s'.StandsIn tokens ∧ s'.errors = s.errors ∧
      IsLeast {j | s.cursor.index ≤ j ∧
        (j = s.cursor.index → kindAt tokens s.cursor.index = some .endOfFile) ∧
          Boundary tokens s.cursor.index j} s'.cursor.index := by
  obtain ⟨k, hk, hboundary, hleast⟩ := resume_eq (hs.ends htokens)
  refine ⟨s.skip (k + 1), hk, ?_⟩
  rw [skip_errors]
  by_cases hcurrent : s.cursor.current.kind = .endOfFile
  · -- At the end of the source nothing is passed.
    have hsame (n : Nat) : s.skip n = s := by
      induction n with
      | zero => rfl
      | succ n ih => rw [← skip_skip, ih, skip_one_of_end hcurrent]
    have hkind : kindAt tokens s.cursor.index = some .endOfFile := by rw [hs.kindAt, hcurrent]
    rw [hsame]
    exact ⟨hs, rfl, ⟨Nat.le_refl _, fun _ => hkind, .inl hkind⟩, fun j hj => hj.1⟩
  · have hinside : ∀ i ≤ k, (s.skip i).cursor.isAtEnd = false := by
      intro i hi
      cases i with
      | zero => simpa [Cursor.isAtEnd] using hcurrent
      | succ i =>
        have hnot := hleast i (by omega)
        simp only [atBoundary, Bool.or_eq_false_iff] at hnot
        exact hnot.1.1
    have hkind : kindAt tokens s.cursor.index ≠ some .endOfFile := by
      rw [hs.kindAt]
      simpa using hcurrent
    obtain ⟨hstands, hindex⟩ := hs.skip htokens (n := k + 1) fun i hi => hinside i (by omega)
    rw [hindex]
    have hhere := (atBoundary_iff hs htokens hinside).mp hboundary
    refine ⟨hstands, rfl, ⟨by omega, by omega, hhere⟩, ?_⟩
    rintro j ⟨hj, hpassed, hj'⟩
    by_contra hlt
    -- A place before it would have been taken.
    obtain ⟨n, rfl⟩ : ∃ n, j = s.cursor.index + (n + 1) := by
      have hne : j ≠ s.cursor.index := fun heq => hkind (hpassed heq)
      exact ⟨j - s.cursor.index - 1, by omega⟩
    have hnot := hleast n (by omega)
    rw [(atBoundary_iff hs htokens fun i hi => hinside i (by omega)).mpr hj'] at hnot
    cases hnot

/-- Moving on keeps to the tokens. -/
theorem standsIn_stable (htokens : EndsOnce tokens) : Stable (StandsIn tokens) where
  next {s} hs := by
    cases hend : s.cursor.isAtEnd with
    | true => rwa [show s.cursor.next = s.cursor by rw [Cursor.next, if_pos hend]]
    | false => exact (hs.skip_one htokens hend).1
  recorded _ hs := hs
  withDepth _ hs := hs

/-- A declaration that is dropped has been given up at its last error, and reading goes on from
there. -/
theorem declaration_dropped (hs : s.StandsIn tokens) (htokens : EndsOnce tokens)
    (hdropped : declaration s = .ok none s') :
    ∃ s₁ ts, s₁.StandsIn tokens ∧ s₁.AtFault ∧ s.Passed ts s₁ ∧ s₁.errors ≠ s.errors ∧
      resume s₁ = .ok () s' := by
  have hk : s.rest.length = s.cursor.upcoming.length + 1 := length_rest s
  have hhonest := declarationStep_of_length (hs.ends htokens) hk
  have hstable := standsIn_stable htokens
  have hbelow := declarationStep_below (P := StandsIn tokens)
    (statements_upTo_below (Nat.le_refl (2 * s.cursor.upcoming.length + 1))).1
    (statements_upTo_below (Nat.le_refl (2 * s.cursor.upcoming.length + 1))).2 s hs
  rw [declaration_of_length hk, recovering] at hdropped
  cases hstep : declarationStep (declarationUpTo (2 * s.cursor.upcoming.length + 1))
      (statementUpTo (2 * s.cursor.upcoming.length + 1)) s with
  | ok e s₁ =>
    rw [hstep] at hdropped
    cases hdropped
  | stuck =>
    rw [hstep] at hdropped
    cases hdropped
  | failed s₁ =>
    rw [hstep] at hdropped hbelow hhonest
    obtain ⟨⟨ts, hts⟩, hne⟩ := hhonest
    have hs₁ : s₁.StandsIn tokens := by
      cases hbelow with
      | failed hs₁ => exact hs₁
    have hresume : resume s₁ = .ok () s' := by
      dsimp only at hdropped
      cases hrs : resume s₁ with
      | ok _ s₂ =>
        rw [hrs] at hdropped
        cases hdropped
        rfl
      | failed s₂ =>
        rw [hrs] at hdropped
        cases hdropped
      | stuck =>
        rw [hrs] at hdropped
        cases hdropped
    exact ⟨s₁, ts, hs₁, declarationStep_givesUp hstep, hts, hne, hresume⟩

end Reader

open Reader

/-- A declaration that begins at the token with index `s.cursor.index`, in front of the end of the
source, and is dropped:

* its last error is of a token with an index `i` that is not smaller, and it is one for which
  reading is given up;
* reading goes on at the least index from `i` on where a statement may begin, but not in front of
  the token that is blamed, unless this one ends the source;
* so it goes on at the least index from `i` on, after the first token of the declaration, where a
  statement may begin, just if the token that is blamed is the first one of the declaration or is
  no word with which a statement begins. -/
theorem resumes_at_boundary {tokens : List Token} (htokens : EndsOnce tokens) {s s' : Reading}
    (hs : s.StandsIn tokens) (hstart : s.cursor.isAtEnd = false)
    (hdropped : declaration s = .ok none s') :
    ∃ earlier t i fault, s'.errors = earlier ++ [⟨t, i, fault⟩] ∧ s.errors <+: earlier ∧
      fault.unwinds = true ∧ tokens[i]? = some t ∧ s.cursor.index ≤ i ∧ s'.StandsIn tokens ∧
      IsLeast {j | i ≤ j ∧ (j = i → t.kind = .endOfFile) ∧ Boundary tokens i j} s'.cursor.index ∧
      (IsLeast {j | i ≤ j ∧ s.cursor.index < j ∧ Boundary tokens i j} s'.cursor.index ↔
        i = s.cursor.index ∨ t.kind ∉ statementWords) := by
  obtain ⟨s₁, ts, hs₁, ⟨earlier, fault, hunwinds, herrors⟩, hts, hne, hresume⟩ :=
    declaration_dropped hs htokens hdropped
  obtain ⟨s₂, hresume₂, hstands, herrors₂, hleast⟩ := resume_isLeast hs₁ htokens
  obtain rfl : s₂ = s' := by
    rw [hresume] at hresume₂
    injection hresume₂ with _ heq
    exact heq.symm
  have hearlier : s.errors <+: earlier := by
    have hprefix := hts.errors
    rw [herrors] at hprefix hne
    exact (List.prefix_concat_iff.mp hprefix).resolve_left fun heq => hne heq.symm
  have hindex : s.cursor.index ≤ s₁.cursor.index := by
    have hlength := hts.length
    have hrest := congrArg List.length hs
    have hrest₁ := congrArg List.length hs₁
    have hpositive := Reading.length_rest s₁
    rw [List.length_drop] at hrest hrest₁
    omega
  have hkind := hs₁.kindAt
  have hfirst : s₁.cursor.current.kind = .endOfFile → s₁.cursor.index ≠ s.cursor.index := by
    intro hend heq
    have hsame := hs.kindAt
    rw [← heq, hkind, hend] at hsame
    injection hsame with hsame
    rw [Reading.isAtEnd_iff.mpr hsame.symm] at hstart
    cases hstart
  rw [hkind] at hleast
  simp only [Option.some.injEq] at hleast
  refine ⟨earlier, s₁.cursor.current, s₁.cursor.index, fault, herrors₂.trans herrors, hearlier,
    hunwinds, hs₁.getElem?, hindex, hstands, ?_, ?_⟩
  · exact hleast
  constructor
  · intro hleast'
    by_contra! hword
    -- The place in front of the blamed word would do, but reading goes on after it.
    have hhere := (boundary_self hkind).mpr (.inr hword.2)
    have hle := hleast'.2 ⟨Nat.le_refl _, by omega, hhere⟩
    have heq : s₂.cursor.index = s₁.cursor.index := Nat.le_antisymm hle hleast.1.1
    have hend := hleast.1.2.1 heq
    have hnot : Kind.endOfFile ∉ statementWords := by decide
    exact hnot (hend ▸ hword.2)
  · intro hcase
    convert hleast using 1
    ext j
    refine and_congr_right fun hj => and_congr_left fun hboundary => ⟨?_, ?_⟩
    · rintro hlt rfl
      refine ((boundary_self hkind).mp hboundary).resolve_right fun hword => ?_
      rcases hcase with heq | hnot
      · omega
      · exact hnot hword
    · intro hpassed
      rcases Nat.lt_or_eq_of_le hj with hlt | rfl
      · omega
      · exact lt_of_le_of_ne hindex (hfirst (hpassed rfl)).symm

/-- Whether a declaration comes first that is dropped with one error, of the token with the index
`blamed`, and reading goes on at the index `resumed`. -/
def dropsFirst (blamed resumed : Nat) : List Token → Bool
  | [] => false
  | t :: ts => t.kind != .endOfFile &&
    match declaration (.start ⟨none, t, ts, 0⟩) with
    | .ok none s => s.errors.map (·.index) == [blamed] && s.cursor.index == resumed
    | _ => false

theorem exists_of_dropsFirst {tokens : List Token} {blamed resumed : Nat}
    (h : dropsFirst blamed resumed tokens = true) :
    ∃ s s' : Reading, s.StandsIn tokens ∧ s.cursor.isAtEnd = false ∧ s.cursor.index = 0 ∧
      declaration s = .ok none s' ∧ s'.errors.map (·.index) = [blamed] ∧
        s'.cursor.index = resumed := by
  cases tokens with
  | nil => cases h
  | cons t ts =>
    rw [dropsFirst, Bool.and_eq_true] at h
    refine ⟨.start ⟨none, t, ts, 0⟩, ?_⟩
    have hstart : (t.kind == .endOfFile) = false := by simpa using h.1
    have hdropped := h.2
    split at hdropped
    · rename_i s' hs'
      simp only [Bool.and_eq_true, beq_iff_eq] at hdropped
      exact ⟨s', rfl, hstart, rfl, hs', hdropped.1, hdropped.2⟩
    · cases hdropped

/-- In `print 1 2 3 var a = 1;` the second number is blamed, and reading goes on in front of the
declaration of the variable. -/
theorem resumes_at_boundary_of_number :
    let tokens := tokensOf "print 1 2 3 var a = 1;"
    ∃ s s' : Reading, s.StandsIn tokens ∧ s.cursor.isAtEnd = false ∧ s.cursor.index = 0 ∧
      declaration s = .ok none s' ∧ s'.errors.map (·.index) = [2] ∧ s'.cursor.index = 4 ∧
        IsLeast {j | 2 ≤ j ∧ 0 < j ∧ Boundary tokens 2 j} 4 := by
  intro tokens
  have hdrops : dropsFirst 2 4 tokens = true := by decide +kernel
  have hnumber : kindAt tokens 2 = some .number := by decide +kernel
  obtain ⟨s, s', hs, hstart, hindex, hdropped, hblamed, hresumed⟩ := exists_of_dropsFirst hdrops
  obtain ⟨earlier, t, i, fault, herrors, -, -, ht, -, -, -, hiff⟩ :=
    resumes_at_boundary (tokensOf_endsOnce _) hs hstart hdropped
  obtain rfl : i = 2 := by
    have hlast := congrArg List.getLast? hblamed
    simpa [herrors] using hlast
  have hkind : t.kind = .number := by
    rw [kindAt, ht] at hnumber
    exact Option.some_inj.mp hnumber
  rw [hindex, hresumed] at hiff
  refine ⟨s, s', hs, hstart, hindex, hdropped, hblamed, hresumed, hiff.mpr (.inr ?_)⟩
  rw [hkind]
  decide

/-- In `print 1 var a = 2;` the word `var` is blamed, as the semicolon in front of it is missing.
A statement may begin there, but reading goes on after it, and the declaration is lost. -/
theorem blamed_word_is_passed :
    let tokens := tokensOf "print 1 var a = 2;"
    (∃ s s' : Reading, s.StandsIn tokens ∧ s.cursor.isAtEnd = false ∧ s.cursor.index = 0 ∧
      declaration s = .ok none s' ∧ s'.errors.map (·.index) = [2] ∧
        kindAt tokens 2 = some .varWord ∧
          ¬ IsLeast {j | 2 ≤ j ∧ 0 < j ∧ Boundary tokens 2 j} s'.cursor.index) ∧
      (Program.ofTokens tokens).statements.length = 0 := by
  intro tokens
  have hdrops : dropsFirst 2 7 tokens = true := by decide +kernel
  have hword : kindAt tokens 2 = some .varWord := by decide +kernel
  have hlost : (Program.ofTokens tokens).statements.length = 0 := by decide +kernel
  obtain ⟨s, s', hs, hstart, hindex, hdropped, hblamed, hresumed⟩ := exists_of_dropsFirst hdrops
  refine ⟨⟨s, s', hs, hstart, hindex, hdropped, hblamed, hword, fun hleast => ?_⟩, hlost⟩
  have hhere : Boundary tokens 2 2 := (boundary_self hword).mpr (.inr (by decide))
  have hle := hleast.2 ⟨Nat.le_refl _, by omega, hhere⟩
  omega

end LoxLang
