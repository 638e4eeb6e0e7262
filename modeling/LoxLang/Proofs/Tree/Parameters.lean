/-
The parameters in a tree.

`Node.parameters` are the parameters of all functions that are declared anywhere in a tree.  A
tree names its parameters if the lexeme of each of them is a text (`Node.NamesParameters`).  So it
is with every program that is read from a source text without an error
(`Program.ofSource_namesParameters`), but a tree that is loaded may have any JSON value there.
-/
import LoxLang.Proofs.Machine.Trees

namespace LoxLang

namespace Node

mutual

/-- The parameters of all functions in a tree. -/
def parameters : Node → List Mark
  | missing | literal _ | reference _ => []
  | grouping e | unary _ e | assign _ e | evaluate e | print e | declare _ e | giveBack _ e =>
    e.parameters
  | binary e _ f | logical e _ f | loop e f => e.parameters ++ f.parameters
  | branch e f g => e.parameters ++ f.parameters ++ g.parameters
  | many es | block es => parametersOfAll es
  | call e _ es => e.parameters ++ parametersOfAll es
  | function _ params body => params ++ parametersOfAll body

/-- The parameters of all functions in some trees. -/
def parametersOfAll : List Node → List Mark
  | [] => []
  | e :: rest => e.parameters ++ parametersOfAll rest

end

theorem mem_parametersOfAll_iff {m : Mark} {es : List Node} :
    m ∈ parametersOfAll es ↔ ∃ e ∈ es, m ∈ e.parameters := by
  induction es with
  | nil => simp [parametersOfAll]
  | cons e rest ih => simp [parametersOfAll, ih]

/-- The lexeme of each parameter is a text. -/
def NamesParameters (node : Node) : Prop := ∀ m ∈ node.parameters, m.IsName

variable {node e : Node}

theorem parameters_subset_of_mem_ifPresent {f : Node} (he : e ∈ f.ifPresent) :
    e.parameters ⊆ f.parameters := by
  obtain ⟨-, rfl⟩ := mem_ifPresent_iff.mp he
  exact List.Subset.refl _

theorem parameters_subset_of_mem {es : List Node} (he : e ∈ es) :
    e.parameters ⊆ parametersOfAll es :=
  fun _ hm => mem_parametersOfAll_iff.mpr ⟨e, he, hm⟩

theorem parameters_subset_of_operand (he : e ∈ node.operands) :
    e.parameters ⊆ node.parameters := by
  cases node with
  | grouping f | unary _ f | assign _ f | evaluate f | print f =>
    obtain rfl := List.mem_singleton.mp he
    exact List.Subset.refl _
  | binary f _ g | logical f _ g =>
    rcases List.mem_pair.mp he with rfl | rfl
    · exact List.subset_append_left _ _
    · exact List.subset_append_right _ _
  | call f _ es =>
    rcases List.mem_cons.mp he with rfl | he
    · exact List.subset_append_left _ _
    · exact List.Subset.trans (parameters_subset_of_mem he) (List.subset_append_right _ _)
  | declare _ f | giveBack _ f => exact parameters_subset_of_mem_ifPresent (f := f) he
  | branch f g h =>
    obtain rfl := List.mem_singleton.mp he
    exact List.Subset.trans (List.subset_append_left _ _) (List.subset_append_left _ _)
  | loop f g =>
    obtain rfl := List.mem_singleton.mp he
    exact List.subset_append_left _ _
  | missing | many _ | literal _ | reference _ | block _ | function _ _ _ =>
    exact absurd he List.not_mem_nil

theorem parameters_subset_of_branch (he : e ∈ node.branches) :
    e.parameters ⊆ node.parameters := by
  cases node with
  | block es => exact parameters_subset_of_mem he
  | branch f g h =>
    rcases List.mem_cons.mp he with rfl | he
    · exact List.Subset.trans (List.subset_append_right _ _) (List.subset_append_left _ _)
    · exact List.Subset.trans (parameters_subset_of_mem_ifPresent he)
        (List.subset_append_right _ _)
  | loop f g =>
    obtain rfl := List.mem_singleton.mp he
    exact List.subset_append_right _ _
  | _ => exact absurd he List.not_mem_nil

namespace NamesParameters

theorem operand (h : node.NamesParameters) (he : e ∈ node.operands) : e.NamesParameters :=
  fun m hm => h m (parameters_subset_of_operand he hm)

theorem branch (h : node.NamesParameters) (he : e ∈ node.branches) : e.NamesParameters :=
  fun m hm => h m (parameters_subset_of_branch he hm)

variable {name : Mark} {params : List Mark} {body : List Node}

theorem isName_of_mem (h : (Node.function name params body).NamesParameters) : ∀ m ∈ params, m.IsName :=
  fun m hm => h m (List.mem_append_left _ hm)

theorem of_mem_body (h : (Node.function name params body).NamesParameters) (he : e ∈ body) :
    e.NamesParameters :=
  fun m hm => h m (List.mem_append_right _ (parameters_subset_of_mem he hm))

end NamesParameters

theorem Evaluable.parameters_eq_nil (h : e.Evaluable) : e.parameters = [] := by
  induction h with
  | literal _ | reference _ => rfl
  | grouping _ ih | unary _ ih | assign _ _ ih => exact ih
  | binary _ _ _ ihl ihr | logical _ _ ihl ihr => exact List.append_eq_nil_iff.mpr ⟨ihl, ihr⟩
  | @call _ _ arguments _ _ ih ihs =>
    refine List.append_eq_nil_iff.mpr ⟨ih, List.eq_nil_iff_forall_not_mem.mpr fun m hm => ?_⟩
    obtain ⟨e, he, hm⟩ := mem_parametersOfAll_iff.mp hm
    rw [ihs e he] at hm
    exact absurd hm List.not_mem_nil

theorem parameters_of_ifPresent (h : ∀ f ∈ e.ifPresent, f.NamesParameters) :
    e.NamesParameters := by
  cases hmissing : e.isMissing with
  | true =>
    cases e with
    | missing => exact fun m hm => absurd hm List.not_mem_nil
    | _ => cases hmissing
  | false => exact h e (mem_ifPresent hmissing)

theorem Evaluable.namesParameters (h : e.Evaluable) : e.NamesParameters := by
  intro m hm
  rw [h.parameters_eq_nil] at hm
  exact absurd hm List.not_mem_nil

theorem Executable.namesParameters {inside : Bool} (h : e.Executable inside) :
    e.NamesParameters := by
  induction h with
  | evaluate h | print h =>
    have := h.namesParameters
    exact this
  | declare _ h | giveBack h =>
    have := parameters_of_ifPresent fun f hf => (h f hf).namesParameters
    exact this
  | block _ ih =>
    intro m hm
    obtain ⟨e, he, hm⟩ := mem_parametersOfAll_iff.mp hm
    exact ih e he m hm
  | branch he _ _ ihf ihg =>
    intro m hm
    rcases List.mem_append.mp hm with hm | hm
    · rcases List.mem_append.mp hm with hm | hm
      · exact he.namesParameters m hm
      · exact ihf m hm
    · exact parameters_of_ifPresent ihg m hm
  | loop he _ ih =>
    intro m hm
    rcases List.mem_append.mp hm with hm | hm
    · exact he.namesParameters m hm
    · exact ih m hm
  | function _ hparams _ ih =>
    intro m hm
    rcases List.mem_append.mp hm with hm | hm
    · exact hparams m hm
    · obtain ⟨e, he, hm⟩ := mem_parametersOfAll_iff.mp hm
      exact ih e he m hm

end Node

/-- The parameters of what is read from a source text without an error have names. -/
theorem Program.ofSource_namesParameters {source : String} (hok : (Program.ofSource source).ok) :
    ∀ e ∈ (Program.ofSource source).statements, e.NamesParameters :=
  fun e he => (Program.ofSource_executable hok e he).namesParameters

end LoxLang
