/-
JSON values are read back.

`Json.ofText?_render`: the text that is written for a value is read as this value, if the fields
of every object in it have different names.  This is an induction on the value.  What is written
for a part is followed by something that does not go on with it, a blank, a comma or a bracket, and
two steps for each character are enough to read it.
-/
import LoxLang.Proofs.Json.Numbers
import LoxLang.Proofs.Json.Texts

namespace LoxLang.Json

mutual

/-- The fields of every object in the value have different names. -/
def Distinct : Json → Prop
  | .array items => DistinctItems items
  | .object fields => (fields.map (·.1)).Nodup ∧ DistinctFields fields
  | _ => True

/-- So it is in every member of the list. -/
def DistinctItems : List Json → Prop
  | [] => True
  | j :: js => Distinct j ∧ DistinctItems js

/-- So it is in every field. -/
def DistinctFields : List (String × Json) → Prop
  | [] => True
  | (_, j) :: rest => Distinct j ∧ DistinctFields rest

end

/-! ### Blanks -/

/-- The characters are blanks. -/
def AreBlanks (cs : List Char) : Prop := ∀ c ∈ cs, c = ' ' ∨ c = '\t' ∨ c = '\n' ∨ c = '\r'

section Blanks

variable {bs rest : List Char} {c : Char}

theorem skipBlanks_append (hbs : AreBlanks bs) (rest : List Char) :
    skipBlanks (bs ++ rest) = skipBlanks rest := by
  rw [skipBlanks, List.dropWhile_append_of_pos fun c hc => decide_eq_true (hbs c hc)]
  rfl

theorem skipBlanks_cons (hc : c ∉ [' ', '\t', '\n', '\r']) :
    skipBlanks (c :: rest) = c :: rest := by
  apply List.dropWhile_cons_of_neg
  simpa using hc

theorem areBlanks_before (layout : Layout) (depth : Nat) : AreBlanks (layout.before depth) := by
  intro c hc
  cases layout with
  | oneLine => exact absurd hc List.not_mem_nil
  | lines =>
    rcases List.mem_cons.mp hc with rfl | hc
    · decide
    · rw [List.eq_of_mem_replicate hc]
      decide

/-- What stands between two members begins with a comma. -/
theorem exists_separator (layout : Layout) (depth : Nat) : ∃ bs, AreBlanks bs ∧
    ∀ rest, layout.separator ++ (layout.before depth ++ rest) = ',' :: (bs ++ rest) := by
  cases layout with
  | oneLine => exact ⟨[' '], by simp [AreBlanks], fun _ => rfl⟩
  | lines => exact ⟨_, areBlanks_before .lines depth, fun _ => rfl⟩

theorem endsNumber_cons (hc : c ∈ [',', ']', '\x7d', ' ', '\t', '\n', '\r']) :
    EndsNumber (c :: rest) := by
  intro c' hc'
  obtain rfl : c = c' := by simpa using hc'
  simp only [List.mem_cons, List.not_mem_nil, or_false] at hc
  rcases hc with rfl | rfl | rfl | rfl | rfl | rfl | rfl <;> decide

theorem endsNumber_append (hbs : AreBlanks bs) (hrest : EndsNumber rest) :
    EndsNumber (bs ++ rest) := by
  cases bs with
  | nil => exact hrest
  | cons c bs =>
    apply endsNumber_cons
    rcases hbs c (List.mem_cons_self ..) with rfl | rfl | rfl | rfl <;> simp

end Blanks

/-! ### Where a value begins -/

section Begins

variable {cs rest : List Char} {n : Nat} {j : Json}

/-- No word and no number begins with a blank, a quote or a bracket. -/
theorem head?_of_readAtom (h : readAtom cs = some (j, rest)) :
    ∃ c cs', cs = c :: cs' ∧
      c ∉ ['"', '[', '\x7b', ']', ' ', '\t', '\n', '\r'] := by
  cases cs with
  | nil => cases h
  | cons c cs =>
    refine ⟨c, cs, rfl, fun hc => ?_⟩
    have hnone : ∀ c ∈ ['"', '[', '\x7b', ']', ' ', '\t', '\n', '\r'], readAtom (c :: cs) = none := by
      intro c hc
      simp only [List.mem_cons, List.not_mem_nil, or_false] at hc
      rcases hc with rfl | rfl | rfl | rfl | rfl | rfl | rfl | rfl <;> rfl
    rw [hnone c hc] at h
    cases h

theorem readValue_of_readAtom (h : readAtom cs = some (j, rest)) :
    readValue (n + 1) cs = some (j, rest) := by
  obtain ⟨c, cs, rfl, hc⟩ := head?_of_readAtom h
  simp only [List.mem_cons, not_or] at hc
  rw [readValue]
  · exact h
  · rintro _ ⟨⟩
    exact hc.1 rfl
  · rintro _ ⟨⟩
    exact hc.2.1 rfl
  · rintro _ ⟨⟩
    exact hc.2.2.1 rfl

/-- No value begins with a blank or with the bracket that closes a list. -/
theorem head?_of_readValue (h : readValue n cs = some (j, rest)) :
    ∃ c cs', cs = c :: cs' ∧ c ∉ [']', ' ', '\t', '\n', '\r'] := by
  cases n with
  | zero => cases h
  | succ n =>
    unfold readValue at h
    split at h
    · exact ⟨_, _, rfl, by decide⟩
    · exact ⟨_, _, rfl, by decide⟩
    · exact ⟨_, _, rfl, by decide⟩
    · obtain ⟨c, cs', rfl, hc⟩ := head?_of_readAtom h
      exact ⟨c, cs', rfl, fun h => hc (by simp_all)⟩

theorem skipBlanks_of_readValue {bs : List Char} (hbs : AreBlanks bs)
    (h : readValue n cs = some (j, rest)) : skipBlanks (bs ++ cs) = cs := by
  obtain ⟨c, cs', rfl, hc⟩ := head?_of_readValue h
  rw [skipBlanks_append hbs, skipBlanks_cons fun h => hc (List.mem_cons_of_mem _ h)]

end Begins

/-! ### Lists and objects -/

section Parts

variable {cs cs' rest bs : List Char} {n : Nat} {j : Json} {js : List Json} {name : String}
  {fields : List (String × Json)}

theorem readItems_of_last (hj : readValue n cs = some (j, bs ++ ']' :: rest)) (hbs : AreBlanks bs) :
    readItems (n + 1) cs = some ([j], rest) := by
  rw [readItems, hj]
  simp only [bind, Option.bind, skipBlanks_append hbs, skipBlanks_cons (c := ']') (by decide)]

theorem readItems_of_more (hj : readValue n cs = some (j, ',' :: cs'))
    (hjs : readItems n (skipBlanks cs') = some (js, rest)) :
    readItems (n + 1) cs = some (j :: js, rest) := by
  rw [readItems, hj]
  simp only [bind, Option.bind, skipBlanks_cons (c := ',') (by decide), hjs]

/-- A field is a quoted name, a colon and a value. -/
def fieldText (name : String) (value : List Char) : List Char :=
  quotedText name ++ ':' :: ' ' :: value

theorem fieldText_eq (name : String) (value : List Char) : fieldText name value =
    '"' :: (name.toList.flatMap escaped ++ '"' :: ':' :: ' ' :: value) := by
  simp [fieldText, quotedText]

/-- One blank stands in front of the value of a field. -/
theorem skipBlank_of_readValue (h : readValue n cs = some (j, rest)) :
    skipBlanks (' ' :: cs) = cs :=
  skipBlanks_of_readValue (show AreBlanks [' '] by simp [AreBlanks]) h

theorem readFields_of_last (hj : readValue n cs = some (j, bs ++ '\x7d' :: rest))
    (hbs : AreBlanks bs) : readFields (n + 1) (fieldText name cs) = some ([(name, j)], rest) := by
  rw [fieldText_eq, readFields, readText_escaped]
  simp only [bind, Option.bind, skipBlanks_cons (c := ':') (by decide), skipBlank_of_readValue hj,
    hj, skipBlanks_append hbs, skipBlanks_cons (c := '\x7d') (by decide)]

theorem readFields_of_more (hj : readValue n cs = some (j, ',' :: cs'))
    (hfields : readFields n (skipBlanks cs') = some (fields, rest)) :
    readFields (n + 1) (fieldText name cs) = some ((name, j) :: fields, rest) := by
  rw [fieldText_eq, readFields, readText_escaped]
  simp only [bind, Option.bind, skipBlanks_cons (c := ':') (by decide), skipBlank_of_readValue hj,
    hj, skipBlanks_cons (c := ',') (by decide), hfields]

end Parts

/-! ### Values -/

/-- What is written for the value is read as this value. -/
def Reads (layout : Layout) (depth : Nat) (j : Json) : Prop :=
  ∀ n rest, 2 * (render layout depth j).length ≤ n → EndsNumber rest →
    readValue n (render layout depth j ++ rest) = some (j, rest)

/-- So it is with these members, after one that is read. -/
def ReadsItems (layout : Layout) (depth : Nat) (js : List Json) : Prop :=
  ∀ j bs n rest, Reads layout depth j → AreBlanks bs →
    2 * ((render layout depth j).length + (renderItems layout depth js).length) + 1 ≤ n →
    readItems n (render layout depth j ++ (renderItems layout depth js ++ (bs ++ ']' :: rest))) =
      some (j :: js, rest)

/-- So it is with these fields, after one whose value is read. -/
def ReadsFields (layout : Layout) (depth : Nat) (fields : List (String × Json)) : Prop :=
  ∀ name j bs n rest, Reads layout depth j → AreBlanks bs →
    2 * ((render layout depth j).length + (renderFields layout depth fields).length) + 1 ≤ n →
    readFields n (fieldText name (render layout depth j ++
      (renderFields layout depth fields ++ (bs ++ '\x7d' :: rest)))) =
        some ((name, j) :: fields, rest)

section Values

variable {layout : Layout} {depth : Nat} {j : Json} {js : List Json} {name : String}
  {fields : List (String × Json)}

theorem endsNumber_nil : EndsNumber [] := by
  intro c hc
  cases hc

theorem reads_of_readAtom (h : ∀ rest, EndsNumber rest →
    readAtom (render layout depth j ++ rest) = some (j, rest)) : Reads layout depth j := by
  intro n rest hn hrest
  obtain ⟨c, cs, hcs, -⟩ := head?_of_readAtom (h [] endsNumber_nil)
  rw [List.append_nil] at hcs
  rw [hcs, List.length_cons] at hn
  obtain ⟨n, rfl⟩ : ∃ k, n = k + 1 := ⟨n - 1, by omega⟩
  exact readValue_of_readAtom (h rest hrest)

theorem reads_text (s : String) : Reads layout depth (.text s) := by
  intro n rest hn _
  rw [render, quotedText, List.length_cons] at hn
  obtain ⟨n, rfl⟩ : ∃ k, n = k + 1 := ⟨n - 1, by omega⟩
  rw [render, quotedText, List.cons_append, List.append_assoc, readValue]
  show (readText (s.toList.flatMap escaped ++ '"' :: rest)).map _ = _
  rw [readText_escaped]
  rfl

theorem reads_array_nil : Reads layout depth (.array []) := by
  intro n rest hn _
  rw [render, List.length_cons] at hn
  obtain ⟨n, rfl⟩ : ∃ k, n = k + 1 := ⟨n - 1, by omega⟩
  rfl

theorem reads_object_nil : Reads layout depth (.object []) := by
  intro n rest hn _
  rw [render, List.length_cons] at hn
  obtain ⟨n, rfl⟩ : ∃ k, n = k + 1 := ⟨n - 1, by omega⟩
  rfl

/-- A comma and blanks stand between two members. -/
theorem exists_renderItems_cons (layout : Layout) (depth : Nat) (j : Json) (js : List Json) :
    ∃ bs, AreBlanks bs ∧ ∀ more, renderItems layout depth (j :: js) ++ more =
      ',' :: (bs ++ (render layout depth j ++ (renderItems layout depth js ++ more))) := by
  obtain ⟨bs, hbs, hseparator⟩ := exists_separator layout depth
  refine ⟨bs, hbs, fun more => ?_⟩
  rw [renderItems, ← hseparator]
  simp only [List.append_assoc]

theorem exists_renderFields_cons (layout : Layout) (depth : Nat) (name : String) (j : Json)
    (fields : List (String × Json)) :
    ∃ bs, AreBlanks bs ∧ ∀ more, renderFields layout depth ((name, j) :: fields) ++ more =
      ',' :: (bs ++ fieldText name
        (render layout depth j ++ (renderFields layout depth fields ++ more))) := by
  obtain ⟨bs, hbs, hseparator⟩ := exists_separator layout depth
  refine ⟨bs, hbs, fun more => ?_⟩
  rw [renderFields, ← hseparator]
  simp only [fieldText, List.append_assoc, List.cons_append]

/-- What stands after a member ends a number. -/
theorem endsNumber_renderItems (layout : Layout) (depth : Nat) (js : List Json) {bs : List Char}
    (hbs : AreBlanks bs) (rest : List Char) :
    EndsNumber (renderItems layout depth js ++ (bs ++ ']' :: rest)) := by
  have hbracket : EndsNumber (']' :: rest) := endsNumber_cons (by decide)
  cases js with
  | nil =>
    rw [renderItems, List.nil_append]
    exact endsNumber_append hbs hbracket
  | cons j js =>
    obtain ⟨bs', -, htext⟩ := exists_renderItems_cons layout depth j js
    rw [htext]
    exact endsNumber_cons (by decide)

theorem endsNumber_renderFields (layout : Layout) (depth : Nat) (fields : List (String × Json))
    {bs : List Char} (hbs : AreBlanks bs) (rest : List Char) :
    EndsNumber (renderFields layout depth fields ++ (bs ++ '\x7d' :: rest)) := by
  have hbracket : EndsNumber ('\x7d' :: rest) := endsNumber_cons (by decide)
  cases fields with
  | nil =>
    rw [renderFields, List.nil_append]
    exact endsNumber_append hbs hbracket
  | cons field fields =>
    obtain ⟨bs', -, htext⟩ := exists_renderFields_cons layout depth field.1 field.2 fields
    rw [htext]
    exact endsNumber_cons (by decide)

theorem readsItems_nil : ReadsItems layout depth [] := by
  intro j bs n rest hj hbs hn
  obtain ⟨n, rfl⟩ : ∃ k, n = k + 1 := ⟨n - 1, by omega⟩
  have hend := endsNumber_renderItems layout depth [] hbs rest
  exact readItems_of_last (hj n _ (by omega) hend) hbs

theorem readsItems_cons (hj : Reads layout depth j) (hjs : ReadsItems layout depth js) :
    ReadsItems layout depth (j :: js) := by
  intro i bs n rest hi hbs hn
  obtain ⟨n, rfl⟩ : ∃ k, n = k + 1 := ⟨n - 1, by omega⟩
  obtain ⟨bs', hbs', htext⟩ := exists_renderItems_cons layout depth j js
  have hlength := congrArg List.length (htext [])
  simp only [List.append_nil, List.length_cons, List.length_append] at hlength
  have hfirst := hi n _ (by omega) (endsNumber_renderItems layout depth (j :: js) hbs rest)
  have hmember := hj n _ (by omega) (endsNumber_renderItems layout depth js hbs rest)
  have hmore := hjs j bs n rest hj hbs (by omega)
  rw [htext] at hfirst ⊢
  refine readItems_of_more hfirst ?_
  rw [skipBlanks_of_readValue hbs' hmember]
  exact hmore

theorem readsFields_nil : ReadsFields layout depth [] := by
  intro name j bs n rest hj hbs hn
  obtain ⟨n, rfl⟩ : ∃ k, n = k + 1 := ⟨n - 1, by omega⟩
  have hend := endsNumber_renderFields layout depth [] hbs rest
  exact readFields_of_last (hj n _ (by omega) hend) hbs

theorem readsFields_cons (hj : Reads layout depth j) (hfields : ReadsFields layout depth fields) :
    ReadsFields layout depth ((name, j) :: fields) := by
  intro name' i bs n rest hi hbs hn
  obtain ⟨n, rfl⟩ : ∃ k, n = k + 1 := ⟨n - 1, by omega⟩
  obtain ⟨bs', hbs', htext⟩ := exists_renderFields_cons layout depth name j fields
  have hlength := congrArg List.length (htext [])
  simp only [fieldText, List.append_nil, List.length_cons, List.length_append] at hlength
  have hend := endsNumber_renderFields layout depth ((name, j) :: fields) hbs rest
  have hfirst := hi n _ (by omega) hend
  have hmore := hfields name j bs n rest hj hbs (by omega)
  rw [htext] at hfirst ⊢
  refine readFields_of_more hfirst ?_
  rw [skipBlanks_append hbs', fieldText, quotedText, List.cons_append, skipBlanks_cons (by decide)]
  exact hmore

theorem reads_array_cons (hj : Reads layout (depth + 1) j)
    (hjs : ReadsItems layout (depth + 1) js) : Reads layout depth (.array (j :: js)) := by
  intro n rest hn _
  have hbefore := areBlanks_before layout depth
  have htext : render layout depth (.array (j :: js)) ++ rest =
      '[' :: (layout.before (depth + 1) ++ (render layout (depth + 1) j ++
        (renderItems layout (depth + 1) js ++ (layout.before depth ++ ']' :: rest)))) := by
    simp [render]
  have hlength := congrArg List.length htext
  simp only [List.length_append, List.length_cons] at hlength
  obtain ⟨n, rfl⟩ : ∃ k, n = k + 1 := ⟨n - 1, by omega⟩
  have hend := endsNumber_renderItems layout (depth + 1) js hbefore rest
  have hmember := hj n _ (by omega) hend
  have hitems := hjs j _ n rest hj hbefore (by omega)
  obtain ⟨c, cs, hcs, hc⟩ := head?_of_readValue hmember
  have hskip := skipBlanks_of_readValue (areBlanks_before layout (depth + 1)) hmember
  rw [htext, readValue, hskip]
  split
  · rename_i heq
    rw [hcs] at heq
    injection heq with heq
    exact absurd (List.mem_cons_self ..) (heq ▸ hc)
  · rw [hitems]
    rfl

theorem reads_object_cons (hj : Reads layout (depth + 1) j)
    (hfields : ReadsFields layout (depth + 1) fields)
    (hnodup : (((name, j) :: fields).map (·.1)).Nodup) :
    Reads layout depth (.object ((name, j) :: fields)) := by
  intro n rest hn _
  have hbefore := areBlanks_before layout depth
  have htext : render layout depth (.object ((name, j) :: fields)) ++ rest =
      '\x7b' :: (layout.before (depth + 1) ++ fieldText name (render layout (depth + 1) j ++
        (renderFields layout (depth + 1) fields ++ (layout.before depth ++ '\x7d' :: rest)))) := by
    simp [render, fieldText]
  have hlength := congrArg List.length htext
  simp only [fieldText, List.length_append, List.length_cons] at hlength
  obtain ⟨n, rfl⟩ : ∃ k, n = k + 1 := ⟨n - 1, by omega⟩
  have hread := hfields name j _ n rest hj hbefore (by omega)
  have hquote (cs : List Char) : skipBlanks (fieldText name cs) = fieldText name cs :=
    skipBlanks_cons (by decide)
  rw [htext, readValue, skipBlanks_append (areBlanks_before layout (depth + 1)), hquote]
  split
  · rename_i heq
    cases heq
  · rw [hread, ← ofFields_of_nodup hnodup]
    rfl

end Values

mutual

/-- Every value is read back, if the fields of every object in it have different names. -/
theorem reads (layout : Layout) (depth : Nat) : (j : Json) → j.Distinct → Reads layout depth j
  | .null, _ => reads_of_readAtom fun _ _ => readAtom_word _ readWord_null
  | .bool b, _ => reads_of_readAtom fun _ _ => readAtom_word _ (readWord_bool b)
  | .integer i, _ => reads_of_readAtom fun _ hrest => readAtom_integer i hrest
  | .number x, _ => reads_of_readAtom fun _ hrest => readAtom_number x hrest
  | .text s, _ => reads_text s
  | .array [], _ => reads_array_nil
  | .array (j :: js), h => reads_array_cons (reads layout (depth + 1) j h.1)
      (readsItems layout (depth + 1) js h.2)
  | .object [], _ => reads_object_nil
  | .object ((_, j) :: fields), h => reads_object_cons (reads layout (depth + 1) j h.2.1)
      (readsFields layout (depth + 1) fields h.2.2) h.1

theorem readsItems (layout : Layout) (depth : Nat) : (js : List Json) → DistinctItems js →
    ReadsItems layout depth js
  | [], _ => readsItems_nil
  | j :: js, h => readsItems_cons (reads layout depth j h.1) (readsItems layout depth js h.2)

theorem readsFields (layout : Layout) (depth : Nat) : (fields : List (String × Json)) →
    DistinctFields fields → ReadsFields layout depth fields
  | [], _ => readsFields_nil
  | (_, j) :: fields, h =>
    readsFields_cons (reads layout depth j h.1) (readsFields layout depth fields h.2)

end

/-- The text that is written for a value holds this value. -/
theorem ofText?_render (layout : Layout) {j : Json} (hj : j.Distinct) :
    ofText? (String.ofList (render layout 0 j)) = some j := by
  have hread := reads layout 0 j hj (2 * (render layout 0 j).length + 2) [] (by omega) endsNumber_nil
  rw [List.append_nil] at hread
  have hnone : AreBlanks [] := fun _ hc => absurd hc List.not_mem_nil
  have hskip := skipBlanks_of_readValue hnone hread
  rw [List.nil_append] at hskip
  rw [ofText?, String.toList_ofList, hskip, hread]
  rfl

end LoxLang.Json
