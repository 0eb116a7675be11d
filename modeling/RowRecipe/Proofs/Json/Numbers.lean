import RowRecipe.Json.Printer
import RowRecipe.Proofs.Binary64.Writing
import RowRecipe.Proofs.Text.WholeNumbers

/-!
The text of a JSON number. It writes the value of the number, and it writes a whole number exactly if
the number is one: any other has a point or an exponent.
-/

namespace RowRecipe.Json.Number

theorem text_integer (i : Int) :
    (integer i).text = Binary64.signText (decide (i < 0)) ++ Nat.toDigits 10 i.natAbs := by
  rw [text, Int.toString_eq_repr, Int.repr_eq_if]
  by_cases hi : 0 ≤ i
  · have hnot : decide (i < 0) = false := decide_eq_false (by omega)
    have habs : i.toNat = i.natAbs := by omega
    rw [if_pos hi, Nat.toList_repr, hnot, habs]
    rfl
  · have hneg : decide (i < 0) = true := decide_eq_true (by omega)
    have habs : (-i).toNat = i.natAbs := by omega
    rw [if_neg hi, String.toList_append, Nat.toList_repr, hneg, habs]
    rfl

/-- The text is read as the value. -/
theorem parse?_text (n : Number) : Binary64.parse? n.text = some n.toBinary64 := by
  cases n with
  | integer i =>
      rw [text_integer, Text.parse?_sign_natural _ (Text.natural?_toDigits _)]
      rfl
  | real x => exact Binary64.parse?_write Binary64.data x

theorem signed64?_text_integer (i : Int) :
    Text.signed64? (integer i).text = (integer i).signed64? := by
  have hread := Text.natural?_toDigits i.natAbs
  have hfilter : (some i).filter (fun j => -(2 ^ 63) ≤ j && j < 2 ^ 63) =
      (integer i).signed64? := Option.filter_some
  rw [text_integer]
  by_cases hi : i < 0
  · have hneg : -(i.natAbs : Int) = i := by omega
    rw [decide_eq_true hi]
    change Text.signed64? ('-' :: Nat.toDigits 10 i.natAbs) = _
    rw [Text.signed64?_minus, hread, Option.map_some, hneg, hfilter]
  · have hpos : Int.ofNat i.natAbs = i := by
      rw [Int.ofNat_eq_natCast]
      omega
    rw [decide_eq_false hi]
    change Text.signed64? (Nat.toDigits 10 i.natAbs) = _
    rw [Text.signed64?_of_natural? hread, hread, Option.map_some, hpos, hfilter]

theorem unsigned64?_text_integer {k : Nat} (h : k < 2 ^ 64) :
    Text.unsigned64? (integer k).text = some k := by
  have hread := Text.natural?_toDigits k
  have hnonneg : decide ((k : Int) < 0) = false := decide_eq_false (by omega)
  rw [text_integer, hnonneg, Int.natAbs_natCast]
  change Text.unsigned64? (Nat.toDigits 10 k) = some k
  rw [Text.unsigned64?_of_natural? hread, hread, Option.filter_some, if_pos (by simpa using h)]

/-- The text of a floating-point value does not write a whole number. -/
theorem text_real {x : Binary64} (h : x.isFinite = true) :
    Text.signed64? (real x).text = none ∧ Text.unsigned64? (real x).text = none := by
  obtain ⟨c, hc, hmark⟩ : ∃ c ∈ (real x).text, c = '.' ∨ c = 'e' := by
    cases x with
    | nan => cases h
    | infinite => cases h
    | finite negative units =>
        obtain ⟨c, hc, hmark⟩ := Binary64.exists_mark_mem_magnitudeText units
        exact ⟨c, List.mem_append_right _ hc, hmark⟩
  have hother : c.isDigit = false ∧ c ≠ '-' ∧ c ≠ '+' := by
    rcases hmark with rfl | rfl <;> decide
  exact ⟨Text.signed64?_eq_none hc hother.1 hother.2.1 hother.2.2,
    Text.unsigned64?_eq_none hc hother.1 hother.2.2⟩

end RowRecipe.Json.Number
