/-
Statements that declare nothing in the scope in which they are executed.

A statement that is no declaration, and of which no branch is one, declares nothing in the current
scope (`Node.DeclaresNothing`): what is declared in a block, or during a call, is so in a scope
that was not there before.

* `Reader.statementUpTo_declaresNothing` — such are the statements that are read where no
  declaration may stand;
* `Moment.Keeps.of_declaresNothing` — executing one adds no name to any scope that there was;
* `Moment.Keeps.findsAgain` — so names are found afterwards where they were before.
-/
import LoxLang.Proofs.Machine.Origins
import LoxLang.Proofs.Reader.Conduct
import LoxLang.Proofs.Scope.Anchors
import Mathlib.Data.List.Find

namespace LoxLang

/-- The statement declares nothing in the scope in which it is executed: it is no declaration, and
nor is any branch of it.  What is declared in a block is so in the scope of that. -/
inductive Node.DeclaresNothing : Node → Prop where
  | intro {node : Node} (noVariable : ∀ name e, node ≠ .declare name e)
      (noFunction : ∀ name params body, node ≠ .function name params body)
      (branches : (∀ es, node ≠ .block es) → ∀ e ∈ node.branches, DeclaresNothing e) :
      DeclaresNothing node

namespace Node.DeclaresNothing

variable {node : Node}

theorem of_branches_eq_nil (noVariable : ∀ name value, node ≠ .declare name value)
    (noFunction : ∀ name params body, node ≠ .function name params body)
    (branches : node.branches = []) : node.DeclaresNothing :=
  ⟨noVariable, noFunction, fun _ _ he => absurd (branches ▸ he) List.not_mem_nil⟩

theorem block (es : List Node) : (Node.block es).DeclaresNothing :=
  ⟨by simp, by simp, fun h => absurd rfl (h es)⟩

theorem branch {e f : Node} (condition : Node) (he : e.DeclaresNothing)
    (hf : f = .missing ∨ f.DeclaresNothing) : (Node.branch condition e f).DeclaresNothing := by
  refine ⟨by simp, by simp, fun _ g hg => ?_⟩
  rcases List.mem_cons.mp hg with rfl | hg
  · exact he
  · rcases hf with rfl | hf
    · exact absurd hg List.not_mem_nil
    · rw [Node.ifPresent] at hg
      split at hg
      · exact absurd hg List.not_mem_nil
      · exact List.mem_singleton.mp hg ▸ hf

theorem loop {e : Node} (condition : Node) (he : e.DeclaresNothing) :
    (Node.loop condition e).DeclaresNothing :=
  ⟨by simp, by simp, fun _ _ hg => List.mem_singleton.mp hg ▸ he⟩

end Node.DeclaresNothing

/-! ### Statements that are read -/

/-- Whatever the reader finds is so. -/
def Reader.Gives {α : Type} (P : α → Prop) (p : Reader α) : Prop :=
  ∀ s a s', p s = .ok a s' → P a

namespace Reader

variable {α β : Type} {P : α → Prop} {Q : β → Prop} {declaration : Reader (Option Node)}
  {statement : Reader Node}

/-- A reader after another one finds something only if both do. -/
theorem ok_of_bind {p : Reader β} {q : β → Reader α} {s s' : Reading} {a : α}
    (h : (p >>= q) s = .ok a s') : ∃ b s₁, p s = .ok b s₁ ∧ q b s₁ = .ok a s' := by
  cases hp : p s with
  | ok b s₁ => exact ⟨b, s₁, rfl, (bind_of_ok hp).symm.trans h⟩
  | failed s₁ =>
    rw [bind_of_failed hp] at h
    cases h
  | stuck =>
    simp only [Bind.bind, hp] at h
    cases h

namespace Gives

theorem stuck : Gives P (stuck : Reader α) := by
  intro s a s' h
  cases h

theorem pure {a : α} (ha : P a) : Gives P (Pure.pure a : Reader α) := by
  intro s b s' h
  cases h
  exact ha

theorem bind {p : Reader β} {q : β → Reader α} (hp : Gives Q p) (hq : ∀ b, Q b → Gives P (q b)) :
    Gives P (p >>= q) := by
  intro s a s' h
  obtain ⟨b, s₁, hb, ha⟩ := ok_of_bind h
  exact hq b (hp s b s₁ hb) s₁ a s' ha

/-- What is found does not depend on what was read before. -/
theorem seq {p : Reader β} {q : β → Reader α} (hq : ∀ b, Gives P (q b)) : Gives P (p >>= q) :=
  bind (Q := fun _ => True) (fun _ _ _ _ => trivial) fun b _ => hq b

theorem ite {p q : Reader α} {c : Prop} [Decidable c] (hp : Gives P p) (hq : Gives P q) :
    Gives P (if c then p else q) := by
  split
  · exact hp
  · exact hq

end Gives

theorem printFrom_declaresNothing : Gives Node.DeclaresNothing printFrom :=
  .seq fun _ => .seq fun _ => .pure (.of_branches_eq_nil (by simp) (by simp) rfl)

theorem expressionStatement_declaresNothing : Gives Node.DeclaresNothing expressionStatement :=
  .seq fun _ => .seq fun _ => .pure (.of_branches_eq_nil (by simp) (by simp) rfl)

theorem returnStatement_declaresNothing : Gives Node.DeclaresNothing returnStatement :=
  .seq fun _ => .seq fun _ => .seq fun _ => .seq fun _ => .seq fun _ =>
    .pure (.of_branches_eq_nil (by simp) (by simp) rfl)

theorem ifFrom_declaresNothing (hstatement : Gives Node.DeclaresNothing statement) :
    Gives Node.DeclaresNothing (ifFrom statement) := by
  rw [ifFrom_eq]
  refine .seq fun condition => .bind hstatement fun e he => ?_
  have helse : Gives (fun f => f = .missing ∨ f.DeclaresNothing)
      (orMissing .elseWord statement) :=
    .seq fun _ => .ite (fun s f s' h => .inr (hstatement s f s' h)) (.pure (.inl rfl))
  exact .bind helse fun f hf => .pure (.branch condition he hf)

theorem whileFrom_declaresNothing (hstatement : Gives Node.DeclaresNothing statement) :
    Gives Node.DeclaresNothing (whileFrom statement) := by
  rw [whileFrom_eq]
  exact .seq fun condition => .bind hstatement fun _ he => .pure (.loop condition he)

/-- What is made of a `for` is a loop or a block, and where it is a loop, its body is that of the
`for` or a block. -/
theorem forLoop_declaresNothing (initializer condition increment : Node) {body : Node}
    (hbody : body.DeclaresNothing) :
    (forLoop initializer condition increment body).DeclaresNothing := by
  rw [forLoop]
  split
  · refine .loop _ ?_
    split
    · exact hbody
    · exact .block _
  · exact .block _

theorem forFrom_declaresNothing (hstatement : Gives Node.DeclaresNothing statement) :
    Gives Node.DeclaresNothing (forFrom statement) := by
  rw [forFrom_eq]
  exact .seq fun _ => .bind hstatement fun _ hbody => .pure (forLoop_declaresNothing _ _ _ hbody)

theorem statementStep_declaresNothing (hstatement : Gives Node.DeclaresNothing statement) :
    Gives Node.DeclaresNothing (statementStep declaration statement) := by
  refine .seq fun t => ?_
  split
  · exact .seq fun _ => printFrom_declaresNothing
  · exact .seq fun _ => ifFrom_declaresNothing hstatement
  · exact .seq fun _ => whileFrom_declaresNothing hstatement
  · exact .seq fun _ => forFrom_declaresNothing hstatement
  · exact returnStatement_declaresNothing
  · exact .seq fun _ => .seq fun es => .pure (.block es)
  · exact expressionStatement_declaresNothing

/-- A statement that is read where no declaration may stand declares nothing. -/
theorem statementUpTo_declaresNothing (n : Nat) :
    Gives Node.DeclaresNothing (statementUpTo n) := by
  induction n with
  | zero => exact .stuck
  | succ n ih => exact statementStep_declaresNothing ih

end Reader

/-! ### Names in scopes that there were -/

variable {settings : Settings} {M N D : Moment}

/-- In the course of the first moment: either no scope has been entered since, and then no
declaration is executed, or one has been. -/
inductive Moment.Within (M D : Moment) : Prop where
  | here (frames : D.frames = M.frames) (quiet : D.executing = true → D.node.DeclaresNothing)
  | inside {frame : Frame} {rest : Frames} (frames : D.frames = frame :: rest)
      (outside : M.frames <:+ rest)

/-- So it is in the course of a statement that declares nothing. -/
theorem Leads.within (hN : M.Within N) (hND : Leads settings N D) : M.Within D := by
  -- Frames are entered at most, and a branch of a statement that declares nothing is one as well.
  have enter {frame : Frame} (hframes : D.frames = frame :: N.frames) : M.Within D := by
    cases hN with
    | here frames _ => exact .inside hframes (frames ▸ List.suffix_refl _)
    | inside frames outside =>
      exact .inside hframes (frames ▸ outside.trans (List.suffix_cons _ _))
  have stay (hframes : D.frames = N.frames) (hquiet : D.executing = true →
      N.executing = true ∧ (N.node.DeclaresNothing → D.node.DeclaresNothing)) : M.Within D := by
    cases hN with
    | here frames quiet =>
      refine .here (hframes.trans frames) fun hD => ?_
      obtain ⟨hexecuting, hnode⟩ := hquiet hD
      exact hnode (quiet hexecuting)
    | inside frames outside => exact .inside (hframes.trans frames) outside
  cases hND with
  | operand | expression | condition => exact stay rfl (by simp)
  | body | block => exact enter rfl
  | @branch n condition thenBranch elseBranch e frames m m₁ m₂ v _ _ taken =>
    refine stay rfl fun _ => ⟨rfl, fun h => ?_⟩
    obtain ⟨_, _, branches⟩ := h
    refine branches (by simp) e ?_
    split at taken
    · exact List.mem_singleton.mp taken ▸ List.mem_cons_self
    · exact List.mem_cons_of_mem _ taken
  | round =>
    refine stay rfl fun _ => ⟨rfl, fun h => ?_⟩
    obtain ⟨_, _, branches⟩ := h
    exact branches (by simp) _ List.mem_cons_self

/-- A scope that was entered is another one than the current one before. -/
theorem Frames.Nested.current_ne {σ : Shape} {frame : Frame} {rest frames : Frames}
    (hnested : Frames.Nested σ (frame :: rest)) (hglobals : σ Arena.globals = some (none, true))
    (hframes : frames <:+ rest) : frame.scope ≠ frames.current := by
  rcases Frames.current_cases frames with hcurrent | hcurrent
  · intro heq
    exact hnested.not_mem (heq ▸ List.map_subset _ hframes.subset hcurrent)
  · intro heq
    obtain ⟨p, b, hscope⟩ := hnested.scope_of_mem (s := frame.scope) List.mem_cons_self
    rw [heq, hcurrent, hglobals] at hscope
    cases hscope

/-- Executing a statement that declares nothing adds no name to any scope that there was. -/
theorem Moment.Keeps.of_declaresNothing (hreclaim : settings.reclaim = true) (hM : M.Fits False)
    (hnode : M.executing = true → M.node.DeclaresNothing) :
    M.Keeps settings M.machine (M.outcome settings).machine := by
  refine (writes_of_outcome hreclaim hM).keeps_of_not_declaring ?_
  rintro h k v ⟨⟨-, rfl⟩, D, hMD, hD⟩
  obtain ⟨hfits, hwithin⟩ : D.Fits False ∧ M.Within D := by
    clear hD
    induction hMD with
    | refl => exact ⟨hM, .here rfl hnode⟩
    | tail _ hND ih => exact ⟨hND.fits hreclaim ih.1, hND.within ih.2⟩
  cases hwithin with
  | here _ quiet =>
    generalize M.machine.current = h at hD
    cases hD with
    | value =>
      obtain ⟨noVariable, -, -⟩ := quiet rfl
      exact noVariable _ _ rfl
    | function =>
      obtain ⟨-, noFunction, -⟩ := quiet rfl
      exact noFunction _ _ _ rfl
  | inside frames outside =>
    -- The declaration would have to be executed in a scope that has been entered since.
    have hproper : Shape.Proper _ D.frames := (hfits.machine False).proper
    rw [frames] at hproper
    refine hproper.nested.current_ne hproper.globals outside ?_
    rw [← hM.current_eq, ← hD.current, hfits.current_eq, frames]
    rfl

/-! ### Where names are found -/

/-- The second machine is in the scope of the first one and in its calls, and from that scope
outwards there are the same scopes. -/
structure Machine.BackIn (m n : Machine) : Prop where
  current : n.current = m.current
  calls : n.calls = m.calls
  outward : ∀ l, m.arena.Outward m.current l → n.arena.Outward n.current l

/-- The machines are in one scope, and every name is found in the same scope from there, or nowhere
in both. -/
structure Machine.FindsAgain (m n : Machine) : Prop where
  current : n.current = m.current
  names : ∀ k, n.arena.binder n.current k = m.arena.binder m.current k

variable {m n : Machine} {v : Layout}

/-- Whatever the machine does next, it comes back. -/
theorem Machine.Fits.backIn {u : Layout} (hm : m.Fits v) (hvu : v.Le u) (hn : n.Fits u) :
    m.BackIn n where
  current := by rw [hn.current, hm.current, hvu.frames]
  calls := by rw [hn.calls, hm.calls, hvu.calls]
  outward l hl := by
    rw [hn.current, hvu.frames, ← hm.current]
    refine hl.persists ?_
    rw [hm.shape, hn.shape]
    exact hvu.persists

theorem Moment.Fits.backIn {named : Prop} (hreclaim : settings.reclaim = true)
    (hM : M.Fits named) : M.machine.BackIn (M.outcome settings).machine := by
  obtain ⟨u, hu, hend⟩ := (hM.outcome hreclaim).fits
  exact (hM.machine False).backIn hu hend

/-- Where no name is added to a scope, names are found where they were before. -/
theorem Moment.Keeps.findsAgain (hkeeps : M.Keeps settings m n) (hm : m.Fits v)
    (hback : m.BackIn n) : m.FindsAgain n := by
  refine ⟨hback.current, fun k => ?_⟩
  obtain ⟨l, hl⟩ := hm.proper.exists_chain hm.proper.anchored_current
  have houtward : m.arena.Outward m.current l := by
    rw [hm.current]
    exact Arena.outward_of_chain (hm.shape ▸ hl)
  rw [(hback.outward l houtward).binder hl.nodup, houtward.binder hl.nodup]
  congr 1
  refine List.find?_congr fun h hh => ?_
  obtain ⟨s, hs⟩ := houtward.scope_of_mem hh
  obtain ⟨t, ht, -, hnames, -⟩ := hkeeps h s hs
  rw [Arena.bindsAt_of_scope hs, Arena.bindsAt_of_scope ht, Bool.eq_iff_iff,
    ← Scope.mem_names_iff, ← Scope.mem_names_iff, hnames]

end LoxLang
