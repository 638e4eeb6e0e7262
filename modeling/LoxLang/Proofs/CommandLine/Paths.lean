/-
The name of the file that a tree is written to.

A clean path is a root and parts with slashes between them, none of them empty and none a single
point.  Such a path is clean already (`cleanPath_join`), and it still is when something is put to
the end of its last part.  So the name that a tree is written under, which is the name of a script
with an ending, is a clean path and names no directory: `cleanPath_treePath`,
`isDirectory_treePath`.
-/
import LoxLang.CommandLine.Answer
import Mathlib.Data.List.Basic

namespace LoxLang.CommandLine

/-! ### Parts -/

/-- The characters of the parts of a path that say something. -/
def charParts (cs : List Char) : List (List Char) :=
  (cs.splitOn '/').filter fun part => part ≠ [] ∧ part ≠ ['.']

/-- The characters are a part of a path that says something. -/
structure IsPart (cs : List Char) : Prop where
  ne_nil : cs ≠ []
  ne_point : cs ≠ ['.']
  noSlash : '/' ∉ cs

section Parts

variable {cs part : List Char} {parts front : List (List Char)}

theorem notMem_of_mem_splitOn {α : Type} [DecidableEq α] {a : α} {xs ys : List α}
    (h : ys ∈ xs.splitOn a) : a ∉ ys := by
  induction xs generalizing ys with
  | nil =>
    rw [List.splitOn_nil, List.mem_singleton] at h
    simp [h]
  | cons x xs ih =>
    rw [List.splitOn_cons_eq_if_modifyHead] at h
    split at h
    · rcases List.mem_cons.mp h with rfl | h
      · exact List.not_mem_nil
      · exact ih h
    · rename_i hx
      obtain ⟨zs, rest, hsplit⟩ := List.exists_cons_of_ne_nil (List.splitOn_ne_nil a xs)
      rw [hsplit, List.modifyHead_cons] at h
      rcases List.mem_cons.mp h with rfl | h
      · have hzs : a ∉ zs := ih (hsplit ▸ List.mem_cons_self ..)
        rw [List.mem_cons, not_or]
        exact ⟨fun heq => hx (beq_iff_eq.mpr heq.symm), hzs⟩
      · exact ih (hsplit ▸ List.mem_cons_of_mem _ h)

theorem isPart_of_mem (h : part ∈ charParts cs) : IsPart part := by
  obtain ⟨hmem, hpart⟩ := List.mem_filter.mp h
  obtain ⟨hnil, hpoint⟩ := of_decide_eq_true hpart
  exact ⟨hnil, hpoint, notMem_of_mem_splitOn hmem⟩

theorem charParts_slash (cs : List Char) : charParts ('/' :: cs) = charParts cs := by
  rw [charParts, List.splitOn_cons_eq_if_modifyHead, if_pos (by decide)]
  rfl

theorem charParts_intercalate (hparts : ∀ part ∈ parts, IsPart part) (hne : parts ≠ []) :
    charParts (['/'].intercalate parts) = parts := by
  rw [charParts, List.splitOn_intercalate _ (fun part h => (hparts part h).noSlash) hne]
  exact List.filter_eq_self.mpr fun part h =>
    decide_eq_true ⟨(hparts part h).ne_nil, (hparts part h).ne_point⟩

/-- Something is put to the end of the last part. -/
theorem intercalate_append (front : List (List Char)) (last more : List Char) :
    ['/'].intercalate (front ++ [last]) ++ more = ['/'].intercalate (front ++ [last ++ more]) := by
  induction front with
  | nil => simp
  | cons part front ih =>
    rw [List.cons_append, List.intercalate_cons_of_ne_nil (by simp), List.append_assoc, ih,
      List.cons_append, List.intercalate_cons_of_ne_nil (by simp)]

theorem pathParts_eq (path : String) :
    pathParts path = (charParts path.toList).map String.ofList := by
  rw [pathParts, charParts, List.filter_map]
  congr 2
  funext part
  have hnil : String.ofList part = "" ↔ part = [] := String.ofList_eq_empty_iff
  have hpoint : String.ofList part = "." ↔ part = ['.'] := by
    rw [← String.toList_inj, String.toList_ofList]
    rfl
  simp [hnil, hpoint]

end Parts

/-! ### Clean paths -/

section Paths

variable {root path : String} {parts : List (List Char)} {last : List Char}

/-- The beginnings of a path. -/
def roots : List String := ["", "/", "//"]

theorem pathRoot_mem (path : String) : pathRoot path ∈ roots := by
  unfold pathRoot
  split
  · decide
  · decide
  · decide

/-- A path with this root and these parts. -/
def join (root : String) (parts : List (List Char)) : String :=
  String.ofList (root.toList ++ ['/'].intercalate parts)

theorem toList_join (root : String) (parts : List (List Char)) :
    (join root parts).toList = root.toList ++ ['/'].intercalate parts := String.toList_ofList

/-- The parts of a path are found again. -/
theorem charParts_join (hroot : root ∈ roots) (hparts : ∀ part ∈ parts, IsPart part)
    (hne : parts ≠ []) : charParts (join root parts).toList = parts := by
  rw [toList_join]
  simp only [roots, List.mem_cons, List.not_mem_nil, or_false] at hroot
  rcases hroot with rfl | rfl | rfl
  · exact charParts_intercalate hparts hne
  · exact (charParts_slash _).trans (charParts_intercalate hparts hne)
  · exact (charParts_slash _).trans ((charParts_slash _).trans (charParts_intercalate hparts hne))

theorem join_ne_empty (hroot : root ∈ roots) (hparts : ∀ part ∈ parts, IsPart part)
    (hne : parts ≠ []) : join root parts ≠ "" := by
  intro hempty
  have hjoin := charParts_join hroot hparts hne
  rw [hempty] at hjoin
  exact hne hjoin.symm

/-- And so is its root. -/
theorem pathRoot_join (hroot : root ∈ roots) (hparts : ∀ part ∈ parts, IsPart part)
    (hne : parts ≠ []) : pathRoot (join root parts) = root := by
  obtain ⟨part, rest, rfl⟩ := List.exists_cons_of_ne_nil hne
  have hpart := hparts part (List.mem_cons_self ..)
  obtain ⟨c, cs, rfl⟩ := List.exists_cons_of_ne_nil hpart.ne_nil
  have hc : c ≠ '/' := fun hc => hpart.noSlash (hc ▸ List.mem_cons_self ..)
  rw [pathRoot, toList_join, List.intercalate_cons_cons_left]
  simp only [roots, List.mem_cons, List.not_mem_nil, or_false] at hroot
  rcases hroot with rfl | rfl | rfl
  · simp [hc]
  · simp [hc]
  · simp [hc]

theorem cleanPath_eq (h : charParts path.toList ≠ []) :
    cleanPath path = join (pathRoot path) (charParts path.toList) := by
  have htext : pathRoot path ++ "/".intercalate (pathParts path) =
      join (pathRoot path) (charParts path.toList) := by
    have hid : String.toList ∘ String.ofList = id := funext fun _ => String.toList_ofList
    rw [← String.toList_inj, String.toList_append, String.toList_intercalate, pathParts_eq,
      toList_join, List.map_map, hid, List.map_id]
    rfl
  have hne := join_ne_empty (pathRoot_mem path) (fun _ => isPart_of_mem) h
  rw [cleanPath, htext]
  simp only [hne, if_false]

/-- A path that is clean is not changed. -/
theorem cleanPath_join (hroot : root ∈ roots) (hparts : ∀ part ∈ parts, IsPart part)
    (hne : parts ≠ []) : cleanPath (join root parts) = join root parts := by
  have hjoin := charParts_join hroot hparts hne
  rw [cleanPath_eq (by rwa [hjoin]), hjoin, pathRoot_join hroot hparts hne]

/-- A path that names no directory has parts. -/
theorem charParts_ne_nil (h : isDirectory (cleanPath path) = false) :
    charParts path.toList ≠ [] := by
  intro hparts
  have hroots : ∀ root ∈ roots, isDirectory (if root = "" then "." else root) = true := by decide
  have hclean : cleanPath path = if pathRoot path = "" then "." else pathRoot path := by
    rw [cleanPath, pathParts_eq, hparts]
    simp
  rw [hclean, hroots _ (pathRoot_mem path)] at h
  cases h

/-! ### The name of a tree -/

/-- The ending of the name that a tree is written under. -/
def ending : List Char := ".ast.json".toList

theorem length_append_ending (last : List Char) : 2 < (last ++ ending).length := by
  have hending : ending.length = 9 := by decide
  rw [List.length_append]
  omega

theorem isPart_ending (hpart : IsPart last) : IsPart (last ++ ending) := by
  have hlength := length_append_ending last
  refine ⟨fun h => ?_, fun h => ?_, ?_⟩
  · rw [h] at hlength
    exact absurd hlength (by decide)
  · rw [h] at hlength
    exact absurd hlength (by decide)
  · rw [List.mem_append, not_or]
    exact ⟨hpart.noSlash, by decide⟩

/-- The name of a tree is a clean path. -/
theorem exists_treePath (h : isDirectory (cleanPath path) = false) : ∃ root front last,
    root ∈ roots ∧ (∀ part ∈ front ++ [last ++ ending], IsPart part) ∧
      treePath (cleanPath path) = join root (front ++ [last ++ ending]) := by
  have hne := charParts_ne_nil h
  have hparts : ∀ part ∈ charParts path.toList, IsPart part := fun _ => isPart_of_mem
  obtain ⟨front, last, heq⟩ := List.eq_nil_or_concat (charParts path.toList) |>.resolve_left hne
  rw [List.concat_eq_append] at heq
  rw [heq] at hparts
  refine ⟨pathRoot path, front, last, pathRoot_mem path, fun part hpart => ?_, ?_⟩
  · rcases List.mem_append.mp hpart with hpart | hpart
    · exact hparts part (List.mem_append_left _ hpart)
    · rw [List.mem_singleton.mp hpart]
      exact isPart_ending (hparts last (by simp))
  · rw [cleanPath_eq hne, heq, ← String.toList_inj, treePath, String.toList_append, toList_join,
      toList_join, List.append_assoc, ← intercalate_append]
    rfl

theorem cleanPath_treePath (h : isDirectory (cleanPath path) = false) :
    cleanPath (treePath (cleanPath path)) = treePath (cleanPath path) := by
  obtain ⟨root, front, last, hroot, hparts, heq⟩ := exists_treePath h
  rw [heq]
  exact cleanPath_join hroot hparts (by simp)

theorem isDirectory_treePath (h : isDirectory (cleanPath path) = false) :
    isDirectory (treePath (cleanPath path)) = false := by
  obtain ⟨root, front, last, hroot, hparts, heq⟩ := exists_treePath h
  have hlength := length_append_ending last
  rw [isDirectory, heq, pathParts_eq, charParts_join hroot hparts (by simp)]
  refine List.all_eq_false.mpr ⟨String.ofList (last ++ ending), by simp, fun h => ?_⟩
  have hparent : last ++ ending = ['.', '.'] := by
    have h := congrArg String.toList (of_decide_eq_true h)
    rwa [String.toList_ofList] at h
  rw [hparent] at hlength
  exact absurd hlength (by decide)

end Paths

end LoxLang.CommandLine
