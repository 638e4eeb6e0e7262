/-
Quoted texts and objects in JSON texts.

A text is read back from what is written between quotes, character by character
(`readText_escaped`), and the fields of an object are its fields again if no name is used twice
(`ofFields_of_nodup`).
-/
import LoxLang.Json.Printer
import LoxLang.Json.Reader
import Mathlib.Data.List.Basic

namespace LoxLang.Json

/-! ### Quoted texts -/

section Quoted

variable {c : Char} {rest : List Char}

/-- A number below 32 has two digits in base sixteen. -/
theorem readUnit_hexadecimal {n : Nat} (hn : n < 0x20) (rest : List Char) :
    readUnit (hexadecimal 4 n ++ rest) = some (n, rest) := by
  have hdigits : ∀ n < 0x20, hexadecimal 4 n = ['0', '0', (n / 16).digitChar, (n % 16).digitChar] ∧
      hexDigit? (n / 16).digitChar = some (n / 16) ∧ hexDigit? (n % 16).digitChar = some (n % 16) := by
    decide
  obtain ⟨htext, hhigh, hlow⟩ := hdigits n hn
  have hzero : hexDigit? '0' = some 0 := rfl
  rw [htext]
  simp only [List.cons_append, List.nil_append, readUnit, hzero, hhigh, hlow, bind, Option.bind]
  congr 2
  omega

theorem readQuoted_of_readEscape {cs : List Char} (h : readEscape cs = some (c, rest)) (n : Nat) :
    readQuoted (n + 1) ('\\' :: cs) = (readQuoted n rest).map fun p => (c :: p.1, p.2) := by
  rw [readQuoted, h]
  simp only [bind, Option.bind]
  cases readQuoted n rest <;> rfl

theorem readQuoted_of_plain (hquote : c ≠ '"') (hbackslash : c ≠ '\\') (hc : ¬c.toNat < 0x20)
    (n : Nat) :
    readQuoted (n + 1) (c :: rest) = (readQuoted n rest).map fun p => (c :: p.1, p.2) := by
  rw [readQuoted, if_neg hc]
  · cases readQuoted n rest <;> rfl
  · exact hquote
  · exact hbackslash

/-- What stands for a character is read as this character. -/
theorem readQuoted_escaped (c : Char) (rest : List Char) (n : Nat) :
    readQuoted (n + 1) (escaped c ++ rest) =
      (readQuoted n rest).map fun p => (c :: p.1, p.2) := by
  unfold escaped
  split
  · rename_i hc
    rcases hc with rfl | rfl
    · exact readQuoted_of_readEscape rfl n
    · exact readQuoted_of_readEscape rfl n
  split
  · rename_i hc
    exact readQuoted_of_readEscape (hc ▸ rfl) n
  split
  · rename_i hc
    exact readQuoted_of_readEscape (hc ▸ rfl) n
  split
  · rename_i hc
    exact readQuoted_of_readEscape (hc ▸ rfl) n
  split
  · rename_i hc
    exact readQuoted_of_readEscape (hc ▸ rfl) n
  split
  · rename_i hc
    exact readQuoted_of_readEscape (hc ▸ rfl) n
  split
  · rename_i hc
    have hhigh : c.toNat < 0xd800 := by omega
    have hescape : readEscape ('u' :: (hexadecimal 4 c.toNat ++ rest)) = some (c, rest) := by
      simp [readEscape, readUnit_hexadecimal hc, hhigh]
    exact readQuoted_of_readEscape hescape n
  · rename_i hquoted _ _ _ _ _ hc
    exact readQuoted_of_plain (fun h => hquoted (.inl h)) (fun h => hquoted (.inr h)) hc n

/-- A text is read back, given at least one step for each character and one for the quote. -/
theorem readQuoted_flatMap (cs : List Char) {n : Nat} (hn : cs.length < n) (rest : List Char) :
    readQuoted n (cs.flatMap escaped ++ '"' :: rest) = some (cs, rest) := by
  induction cs generalizing n with
  | nil =>
    obtain ⟨n, rfl⟩ := Nat.exists_eq_succ_of_ne_zero (Nat.ne_of_gt hn)
    rfl
  | cons c cs ih =>
    obtain ⟨n, rfl⟩ := Nat.exists_eq_succ_of_ne_zero (Nat.ne_zero_of_lt hn)
    rw [List.flatMap_cons, List.append_assoc, readQuoted_escaped,
      ih (Nat.lt_of_succ_lt_succ hn)]
    rfl

theorem escaped_ne_nil (c : Char) : escaped c ≠ [] := by
  unfold escaped
  repeat' split
  all_goals simp

theorem length_le_flatMap_escaped (cs : List Char) : cs.length ≤ (cs.flatMap escaped).length := by
  induction cs with
  | nil => exact Nat.le_refl 0
  | cons c cs ih =>
    have := List.length_pos_iff.mpr (escaped_ne_nil c)
    rw [List.flatMap_cons, List.length_append, List.length_cons]
    omega

theorem readText_escaped (s : String) (rest : List Char) :
    readText (s.toList.flatMap escaped ++ '"' :: rest) = some (s, rest) := by
  have := length_le_flatMap_escaped s.toList
  rw [readText, readQuoted_flatMap _ (by rw [List.length_append]; omega), Option.map_some]
  exact congrArg (fun s => some (s, rest)) String.ofList_toList

end Quoted

/-! ### Fields -/

section Fields

variable {fields : List (String × Json)} {name : String}

theorem setField_of_notMem (h : name ∉ fields.map (·.1)) (value : Json) :
    setField fields name value = fields ++ [(name, value)] := by
  induction fields with
  | nil => rfl
  | cons field fields ih =>
    rw [List.map_cons, List.mem_cons, not_or] at h
    rw [setField, if_neg (Ne.symm h.1), ih h.2]
    rfl

theorem foldl_setField (done : List (String × Json)) (h : ((done ++ fields).map (·.1)).Nodup) :
    fields.foldl (fun done field => setField done field.1 field.2) done = done ++ fields := by
  induction fields generalizing done with
  | nil => simp
  | cons field fields ih =>
    have hnew : field.1 ∉ done.map (·.1) := by
      rw [List.map_append, List.nodup_append] at h
      exact fun hmem => h.2.2 _ hmem _ (List.mem_cons_self ..) rfl
    have hsplit : done ++ field :: fields = done ++ [field] ++ fields := by simp
    rw [List.foldl_cons, setField_of_notMem hnew, hsplit]
    exact ih _ (by rwa [hsplit] at h)

/-- Fields with different names stay as they are. -/
theorem ofFields_of_nodup (h : (fields.map (·.1)).Nodup) : ofFields fields = .object fields :=
  congrArg object (foldl_setField [] h)

end Fields

end LoxLang.Json
