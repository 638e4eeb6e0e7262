/-
The lines of a JSON text.

No carriage return is ever written: in a quoted text it is escaped, and lines end with a line feed
(`notMem_render`).  So a JSON text does not change when it is read as the text of a file, where
carriage returns are taken for line ends.
-/
import LoxLang.Json.Printer
import LoxLang.Proofs.Decimal.Notation
import LoxLang.Proofs.Decimal.Shortest

namespace LoxLang

/-! ### Numbers -/

theorem AreDigits.notMem_return {cs : List Char} (h : AreDigits cs) : '\r' ∉ cs := by
  intro hr
  have := h '\r' hr
  cases this

theorem Numeral.notMem_return {cs : List Char} {d : Decimal} (h : Numeral cs d) : '\r' ∉ cs := by
  cases h with
  | point hwhole hfraction =>
    simp [hwhole.areDigits.notMem_return, hfraction.notMem_return]
  | @power whole fraction size sign negative hwhole hfraction hsign hsize =>
    have hpointed : '\r' ∉ pointed fraction := by
      cases fraction with
      | nil => exact List.not_mem_nil
      | cons c cs =>
        have := hfraction.notMem_return
        simpa [pointed] using this
    have hne : '\r' ≠ sign := by cases hsign <;> decide
    simp [hwhole.areDigits.notMem_return, hpointed, hsize.notMem_return, hne]

theorem notMem_generalText (x : Float) : '\r' ∉ (generalText "NaN" "Infinity" x).toList := by
  rcases generalText_cases "NaN" "Infinity" x with ⟨-, htext⟩ | ⟨size, hsize, htext⟩
  · rw [htext]
    decide
  · have hreturn : '\r' ∉ size := by
      cases hsize with
      | infinite => decide
      | finite hb =>
        obtain ⟨d, hd, -⟩ := Decimal.general_numeral (Decimal.exponent_shortest hb)
        exact hd.notMem_return
    rw [htext]
    split
    · rw [List.mem_cons, not_or]
      exact ⟨by decide, hreturn⟩
    · exact hreturn

theorem notMem_toString (i : Int) : '\r' ∉ (toString i).toList := by
  have hdigits := (areDigits_toDigits i.natAbs).notMem_return
  rw [toList_toString]
  split
  · rw [List.mem_cons, not_or]
    exact ⟨by decide, hdigits⟩
  · exact hdigits

namespace Json

/-! ### Values -/

theorem notMem_escaped (c : Char) : '\r' ∉ escaped c := by
  have hdigits : ∀ n < 0x20, '\r' ∉ hexadecimal 4 n := by decide
  unfold escaped
  split
  · rename_i hc
    rcases hc with rfl | rfl <;> decide
  split
  · decide
  split
  · decide
  split
  · decide
  split
  · decide
  split
  · decide
  split
  · rename_i hc
    simp [hdigits _ hc]
  · rename_i hreturn _ _ _ _
    exact fun h => hreturn (List.mem_singleton.mp h).symm

theorem notMem_quotedText (s : String) : '\r' ∉ quotedText s := by
  simp [quotedText, notMem_escaped]

theorem notMem_before (layout : Layout) (depth : Nat) : '\r' ∉ layout.before depth := by
  cases layout <;> simp [Layout.before]

theorem notMem_separator (layout : Layout) : '\r' ∉ layout.separator := by
  cases layout <;> decide

mutual

/-- No carriage return is written. -/
theorem notMem_render (layout : Layout) (depth : Nat) : (j : Json) → '\r' ∉ render layout depth j
  | .null => by simp [render]
  | .bool b => by cases b <;> simp [render]
  | .integer i => notMem_toString i
  | .number x => notMem_generalText x
  | .text s => notMem_quotedText s
  | .array [] => by simp [render]
  | .array (j :: js) => by
    simp [render, notMem_before, notMem_render layout (depth + 1) j,
      notMem_renderItems layout (depth + 1) js]
  | .object [] => by simp [render]
  | .object ((name, j) :: fields) => by
    simp [render, notMem_before, notMem_quotedText, notMem_render layout (depth + 1) j,
      notMem_renderFields layout (depth + 1) fields]

theorem notMem_renderItems (layout : Layout) (depth : Nat) : (js : List Json) →
    '\r' ∉ renderItems layout depth js
  | [] => List.not_mem_nil
  | j :: js => by
    simp [renderItems, notMem_separator, notMem_before, notMem_render layout depth j,
      notMem_renderItems layout depth js]

theorem notMem_renderFields (layout : Layout) (depth : Nat) : (fields : List (String × Json)) →
    '\r' ∉ renderFields layout depth fields
  | [] => List.not_mem_nil
  | (name, j) :: fields => by
    simp [renderFields, notMem_separator, notMem_before, notMem_quotedText,
      notMem_render layout depth j, notMem_renderFields layout depth fields]

end

end Json

end LoxLang
