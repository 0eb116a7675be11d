import RowRecipe.Proofs.Json.Numbers
import RowRecipe.Proofs.Quantity.Parsing
import RowRecipe.Token.Json

/-!
Numerals as data. A numeral is read back from its own text, and what it is written as in JSON is read
back as one of equal value that is written the same way again, whether it is a whole number or not.
-/

namespace RowRecipe

/-- The two are equal, seen from either side, and are written alike. -/
structure Mirrors {α : Type} (same : α → α → Bool) (json : α → Json) (a b : α) : Prop where
  equal : same a b = true
  equal_symm : same b a = true
  alike : json a = json b

/-- What a value is written as can be read, and what is read mirrors the value. -/
def Returns {α : Type} (read : Json → Except TokenError α) (same : α → α → Bool) (json : α → Json)
    (a : α) : Prop :=
  ∃ b, read (json a) = .ok b ∧ Mirrors same json b a

namespace Numeral

/-- A numeral is read back from its text, which has no white space to lose. -/
theorem parse?_text (n : Numeral) : parse? n.text = some n := by
  have htrim : Text.trimmed n.text = n.text :=
    Text.trimmed_of_trim (Text.trim_of_forall (Binary64.not_blank_of_parse? n.reads))
  obtain ⟨text, value, hreads, hfinite⟩ := n
  simp only at htrim
  dsimp only [parse?]
  split
  · rename_i value' hvalue'
    have hsame : value' = value := by
      rw [htrim, hreads] at hvalue'
      exact (Option.some.inj hvalue').symm
    subst hsame
    rw [dif_pos hfinite]
    simp only [htrim]
  · rename_i hnone
    rw [htrim, hreads] at hnone
    cases hnone

/-- The numeral with the text of a number. -/
def ofNumber (n : Json.Number) (h : n.toBinary64.isFinite = true) : Numeral where
  text := String.ofList n.text
  value := n.toBinary64
  reads := by
    rw [String.toList_ofList]
    exact n.parse?_text
  finite := h

theorem numeralOf_number (n : Json.Number) (h : n.toBinary64.isFinite = true) :
    Token.numeralOf (.number n) = .ok (ofNumber n h) := by
  have hread := parse?_text (ofNumber n h)
  change parse? (String.ofList n.text) = _ at hread
  simp only [Token.numeralOf, hread]

theorem value_ofNumber (n : Json.Number) (h : n.toBinary64.isFinite = true) :
    (ofNumber n h).value = n.toBinary64 := rfl

theorem signed64?_ofNumber (n : Json.Number) (h : n.toBinary64.isFinite = true) :
    (ofNumber n h).signed64? = Text.signed64? n.text := by
  rw [signed64?, ofNumber, String.toList_ofList]

theorem signed64?_ofNumber_integer {i : Int} (hlow : -(2 ^ 63) ≤ i) (hhigh : i < 2 ^ 63)
    (h : (Json.Number.integer i).toBinary64.isFinite = true) :
    (ofNumber (.integer i) h).signed64? = some i := by
  rw [signed64?_ofNumber, Json.Number.signed64?_text_integer, Json.Number.signed64?]
  exact if_pos (by simpa using ⟨hlow, hhigh⟩)

theorem unsigned64?_ofNumber (n : Json.Number) (h : n.toBinary64.isFinite = true) :
    (ofNumber n h).unsigned64? = Text.unsigned64? n.text := by
  rw [unsigned64?, ofNumber, String.toList_ofList]

theorem value_ne_nan (n : Numeral) : n.value ≠ .nan := by
  intro hnan
  have hfinite := n.finite
  rw [hnan] at hfinite
  cases hfinite

theorem mirrors_of_signed64? {a b : Numeral} {i : Int} (ha : a.signed64? = some i)
    (hb : b.signed64? = some i) : Mirrors same json a b where
  equal := by simp only [Numeral.same, ha, hb, beq_self_eq_true]
  equal_symm := by simp only [Numeral.same, ha, hb, beq_self_eq_true]
  alike := by simp only [Numeral.json, ha, hb]

theorem mirrors_of_value {a b : Numeral} (ha : a.signed64? = none) (hb : b.signed64? = none)
    (hvalue : a.value = b.value) (hunsigned : a.unsigned64? = b.unsigned64?) : Mirrors same json a b := by
  have hequals : b.value.equals b.value = true := Binary64.equals_self b.value_ne_nan
  constructor
  · simp only [Numeral.same, ha, hb, hvalue, hequals]
  · simp only [Numeral.same, ha, hb, hvalue, hequals]
  · simp only [Numeral.json, ha, hb, hvalue, hunsigned]

theorem signed64?_range {n : Numeral} {i : Int} (h : n.signed64? = some i) :
    -(2 ^ 63) ≤ i ∧ i < 2 ^ 63 := by
  have hrange := (Option.filter_eq_some_iff.mp h).2
  simpa using hrange

/-- What a numeral is written as is read back. -/
theorem returns (n : Numeral) : Returns Token.numeralOf same json n := by
  cases hsigned : n.signed64? with
  | some i =>
      obtain ⟨hlow, hhigh⟩ := signed64?_range hsigned
      have hjson : n.json = .number (.integer i) := by
        simp only [Numeral.json, hsigned]
        rfl
      have hfinite : (Json.Number.integer i).toBinary64.isFinite = true :=
        Binary64.isFinite_ofInt (by omega)
      exact ⟨ofNumber _ hfinite, by rw [hjson, numeralOf_number _ hfinite],
        mirrors_of_signed64? (signed64?_ofNumber_integer hlow hhigh hfinite) hsigned⟩
  | none =>
      cases hunsigned : n.unsigned64? with
      | some k =>
          have hk := (Text.exists_digits_of_unsigned64? hunsigned).1
          have hlarge : ¬k < 2 ^ 63 := by
            intro hlt
            have hread := Text.signed64?_of_unsigned64? hunsigned
            rw [if_pos hlt] at hread
            rw [signed64?, hread] at hsigned
            cases hsigned
          have hjson : n.json = .number (.integer k) := by
            simp only [Numeral.json, hsigned, hunsigned]
            rfl
          have hfinite : (Json.Number.integer k).toBinary64.isFinite = true :=
            Binary64.isFinite_ofInt (by omega)
          refine ⟨ofNumber _ hfinite, by rw [hjson, numeralOf_number _ hfinite],
            mirrors_of_value ?_ hsigned ?_ ?_⟩
          · rw [signed64?_ofNumber,
              Text.signed64?_of_unsigned64? (Json.Number.unsigned64?_text_integer hk),
              if_neg hlarge]
          · have hvalue := n.reads
            rw [Text.parse?_of_unsigned64? hunsigned] at hvalue
            rw [value_ofNumber, Json.Number.toBinary64]
            exact Option.some.inj hvalue
          · rw [unsigned64?_ofNumber, Json.Number.unsigned64?_text_integer hk, hunsigned]
      | none =>
          have hjson : n.json = .number (.real n.value) := by
            simp only [Numeral.json, hsigned, hunsigned]
          obtain ⟨hnone, hnone'⟩ := Json.Number.text_real n.finite
          have hfinite : (Json.Number.real n.value).toBinary64.isFinite = true := n.finite
          refine ⟨ofNumber _ hfinite, by rw [hjson, numeralOf_number _ hfinite],
            mirrors_of_value ?_ hsigned rfl ?_⟩
          · rw [signed64?_ofNumber, hnone]
          · rw [unsigned64?_ofNumber, hnone', hunsigned]

end Numeral

end RowRecipe
