import RowRecipe.Proofs.Binary64.Decimal
import RowRecipe.Proofs.Binary64.Reading
import RowRecipe.Proofs.Quantity.Shapes
import RowRecipe.Quantity.Literal

/-!
Quantities that were read from a text. Such a one keeps its text, so it can be read again, and its
magnitude is a number, though maybe an infinite one.
-/

namespace RowRecipe

namespace Binary64

theorem round_ne_nan (negative : Bool) (num den : Nat) : round negative num den ≠ .nan := by
  unfold round
  split
  · intro h
    cases h
  · intro h
    cases h

theorem ofDecimal_ne_nan (negative : Bool) (d : Decimal) : ofDecimal negative d ≠ .nan := by
  rw [ofDecimal_eq_round]
  exact round_ne_nan _ _ _

/-- What is read from a text that starts with a digit, of whatever script, is a decimal. -/
theorem exists_decimal_of_parse? {c : Char} {rest : List Char} {x : Binary64}
    (hc : Text.isDecimalDigit c = true) (h : parse? (c :: rest) = some x) :
    ∃ d, unsignedDecimal? (c :: rest) = some d ∧ x = ofDecimal false d := by
  have hsign : takeSign (c :: rest) = (false, c :: rest) := by
    refine takeSign_eq_self ?_ ?_ rest
    · rintro rfl
      exact absurd hc (by decide)
    · rintro rfl
      exact absurd hc (by decide)
  rw [parse?_decimal hsign (Text.isAlpha_eq_false_of_isDecimalDigit hc)] at h
  obtain ⟨d, hd, rfl⟩ := Option.map_eq_some_iff.mp h
  exact ⟨d, hd, rfl⟩

theorem equals_self {x : Binary64} (h : x ≠ .nan) : x.equals x = true := by
  cases x with
  | nan => exact (h rfl).elim
  | infinite => exact beq_self_eq_true _
  | finite => rw [equals, beq_self_eq_true, beq_self_eq_true, Bool.true_or, Bool.and_self]

end Binary64

/-- The number of a literal starts with a digit. -/
theorem Literal.exists_head {cs : List Char} {literal : Literal} (h : split? cs = some literal) :
    ∃ c rest, literal.number = c :: rest ∧ Text.isDecimalDigit c = true := by
  obtain ⟨number, suffix⟩ := literal
  exact (shape_of_split? h).decimal.head

namespace Quantity

variable {U : Type} [UnitFamily U] {text : String} {q : Quantity U}

/-- The decimal that the text of a quantity starts with. -/
def decimal? (q : Quantity U) : Option Decimal :=
  (Literal.split? q.text.toList).bind fun literal => Binary64.unsignedDecimal? literal.number

/-- A quantity that was read has the value of its decimal. -/
theorem parse_eq_ok (h : parse text = .ok q) :
    q.text = text ∧ ∃ d, q.decimal? = some d ∧ q.value = Binary64.ofDecimal false d := by
  rw [parse] at h
  split at h
  · cases h
  · rename_i number suffix hsplit
    obtain ⟨c, rest, rfl, hc⟩ := Literal.exists_head hsplit
    dsimp only at h
    split at h
    · split at h
      · cases h
      · cases h
      · rename_i value unit hvalue _
        obtain rfl := Except.ok.inj h
        obtain ⟨d, hd, rfl⟩ := Binary64.exists_decimal_of_parse? hc hvalue
        refine ⟨rfl, d, ?_, rfl⟩
        rw [decimal?, hsplit]
        exact hd
    · split at h
      · cases h
      · cases h

/-- A quantity that was read can be read again. -/
theorem parse_text (h : parse text = .ok q) : parse q.text = .ok q := by
  rw [(parse_eq_ok h).1, h]

/-- A quantity that was read equals itself. -/
theorem same_self [DecidableEq U] (h : parse text = .ok q) : q.same q = true := by
  obtain ⟨-, d, -, hvalue⟩ := parse_eq_ok h
  rw [same, beq_self_eq_true, hvalue, Binary64.equals_self (Binary64.ofDecimal_ne_nan false d),
    beq_self_eq_true]
  rfl

end Quantity

end RowRecipe
