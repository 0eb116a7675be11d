import RowRecipe.Proofs.Binary64.Reading
import RowRecipe.Proofs.Quantity.Shapes
import RowRecipe.Proofs.Token.Numerals
import RowRecipe.Token.Numeral

/-!
What numbers and unit literals denote. A decimal always reads as some value, which need not be
finite; a unit literal splits where its letters start, and is a quantity exactly when these are the
symbol of a unit.
-/

namespace RowRecipe

open Lexeme

namespace Binary64

theorem unsignedDecimal?_isSome {cs : List Char} (h : IsDecimal cs) :
    (unsignedDecimal? cs).isSome = true := by
  cases h with
  | whole hne hdigits =>
      rw [unsignedDecimal?_digits hne hdigits]
      rfl
  | fraction hne hdigits _ hmore =>
      rw [unsignedDecimal?_fraction hne hdigits hmore]
      rfl

theorem parse?_isSome {cs : List Char} (h : IsNumber cs) : (parse? cs).isSome = true := by
  obtain ⟨negative, rest, rfl, hdecimal⟩ : ∃ negative rest,
      cs = signText negative ++ rest ∧ IsDecimal rest := by
    cases h with
    | plain h => exact ⟨false, cs, rfl, h⟩
    | negative h => exact ⟨true, _, rfl, h⟩
  obtain ⟨c, tail, rfl, hc⟩ := hdecimal.head
  rw [parse?_signText negative hc, Option.isSome_map, unsignedDecimal?_isSome hdecimal]

end Binary64

namespace Numeral

/-- A number is a numeral exactly when its value is finite. -/
theorem parse?_isSome {text : String} (h : IsNumber text.toList) :
    (parse? text).isSome = (Binary64.parse? text.toList).any Binary64.isFinite := by
  have htrim : Text.trimmed text = text := Text.trimmed_of_trim (Text.trim_of_forall h.not_blank)
  cases hvalue : Binary64.parse? text.toList with
  | none =>
      have hsome := Binary64.parse?_isSome h
      rw [hvalue] at hsome
      cases hsome
  | some value =>
      cases hfinite : value.isFinite with
      | true =>
          have hread := parse?_text ⟨text, value, hvalue, hfinite⟩
          rw [hread, Option.any_some, hfinite]
          rfl
      | false =>
          rw [Option.any_some, hfinite, Option.isSome_eq_false_iff, Option.isNone_iff_eq_none]
          dsimp only [parse?]
          split
          · rename_i value' hvalue'
            rw [htrim, hvalue] at hvalue'
            obtain rfl := Option.some.inj hvalue'
            rw [dif_neg (by rw [hfinite]; decide)]
          · rfl

end Numeral

namespace Literal

/-- A unit literal falls into its number and its letters. -/
theorem split?_append {number suffix : List Char} (hnumber : IsDecimal number)
    (hsuffix : IsSuffix suffix) : split? (number ++ suffix) = some ⟨number, suffix⟩ := by
  have hshape : Shape Char.isDigit (number ++ suffix) number suffix := by
    refine ⟨decimalOf_isDigit_iff.mpr hnumber, [], [], [], ?_, ?_, ?_, ?_⟩
    · rw [List.nil_append, List.append_nil, List.append_nil]
    all_goals exact List.forall_mem_nil _
  exact hshape.ofAscii.split? (fun c hc => plain_of_isAlpha (hsuffix.letters c hc)) hsuffix.nonempty

/-- A decimal of whatever script is read as a number exactly when its digits are those of ASCII. -/
theorem parse?_isSome_iff {number : List Char} (h : DecimalOf Text.isDecimalDigit number) :
    (Binary64.parse? number).isSome = true ↔ DecimalOf Char.isDigit number := by
  constructor
  · intro hsome
    obtain ⟨x, hx⟩ := Option.isSome_iff_exists.mp hsome
    exact h.imp fun c hc hdigit => (Binary64.isGraphic_of_parse? hx c hc).isDigit hdigit
  · exact fun hascii => Binary64.parse?_isSome (.plain (decimalOf_isDigit_iff.mp hascii))

theorem isWord_of_isSuffix {suffix : List Char} (h : IsSuffix suffix) : isWord suffix = true := by
  rw [isWord, Bool.and_eq_true, List.all_eq_true]
  exact ⟨by simpa using h.nonempty, h.letters⟩

/-- Among letters of ASCII, folding to a symbol is being one in any case. -/
theorem foldsToUnit_of_isSuffix (U : Type) [UnitFamily U] {suffix : List Char} (h : IsSuffix suffix) :
    foldsToUnit U suffix = (UnitFamily.named? suffix : Option U).isSome := by
  have hfold : suffix.map foldCase = suffix.map Char.toLower := by
    apply List.map_congr_left
    intro c hc
    have hrange := Text.toNat_of_isAlpha (h.letters c hc)
    rw [foldCase, if_neg (by omega), if_neg (by omega)]
  have htrim : Text.trim suffix = suffix :=
    Text.trim_of_forall fun c hc => Text.isBlank_of_isAlpha (h.letters c hc)
  rw [foldsToUnit, UnitFamily.named?, hfold, htrim, List.isSome_find?]
  rfl

end Literal

namespace Quantity

open UnitFamily

/-- A unit literal is a quantity when its letters are the symbol of a unit, in any case, and
otherwise it is in no known unit. -/
theorem parse_literal {U : Type} [UnitFamily U] {number suffix : List Char}
    (hnumber : IsDecimal number) (hsuffix : IsSuffix suffix) :
    ∃ value, Binary64.parse? number = some value ∧
      (parse (String.ofList (number ++ suffix)) : Except UnitError (Quantity U)) =
        match (named? suffix : Option U) with
        | some u => .ok ⟨String.ofList (number ++ suffix), value, u⟩
        | none => .error (.unrecognizedUnit (kind U) (String.ofList suffix)
            (String.ofList (number ++ suffix))) := by
  obtain ⟨value, hvalue⟩ := Option.isSome_iff_exists.mp (Binary64.parse?_isSome (.plain hnumber))
  refine ⟨value, hvalue, ?_⟩
  simp only [parse, String.toList_ofList, Literal.split?_append hnumber hsuffix,
    Literal.foldsToUnit_of_isSuffix U hsuffix, Literal.isWord_of_isSuffix hsuffix, hvalue]
  cases (named? suffix : Option U) with
  | none => rfl
  | some u => rfl

end Quantity

end RowRecipe
