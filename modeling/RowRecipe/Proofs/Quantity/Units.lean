import Mathlib.Data.List.Forall2
import RowRecipe.Proofs.Outcome
import RowRecipe.Proofs.Quantity.Shapes
import RowRecipe.Quantity.ByteSize
import RowRecipe.Quantity.TimeDuration

/-!
Names of units. A unit is named by the letters of its symbol in any ASCII case. Case folding in the
sense of Unicode lets two more characters stand for letters: such a suffix looks like the symbol of a
unit but does not name it.
-/

namespace RowRecipe

open UnitFamily

variable {U : Type} [UnitFamily U] {suffix : List Char}

/-- Every unit of the family is found by its symbol, which has nothing but letters. -/
structure Spellable (U : Type) [UnitFamily U] : Prop where
  nonempty : ∀ u : U, (UnitFamily.symbol u).toList ≠ []
  letters : ∀ u : U, ∀ e ∈ (UnitFamily.symbol u).toList, e.toLower.isAlpha = true
  named : ∀ u : U, UnitFamily.named? (UnitFamily.symbol u).toList = some u

theorem spellable_byteUnit : Spellable ByteUnit := by
  constructor
  · intro u
    cases u <;> decide
  · intro u
    cases u <;> simp [UnitFamily.symbol, ByteUnit.symbol]
  · intro u
    cases u <;> decide

theorem spellable_timeUnit : Spellable TimeUnit := by
  constructor
  · intro u
    cases u <;> decide
  · intro u
    cases u <;> simp [UnitFamily.symbol, TimeUnit.symbol]
  · intro u
    cases u <;> decide

namespace Spellable

theorem mem_all (hU : Spellable U) (u : U) : u ∈ (UnitFamily.all : List U) :=
  List.mem_of_find?_eq_some (hU.named u)

theorem trim_symbol (hU : Spellable U) (u : U) :
    Text.trim (symbol u).toList = (symbol u).toList :=
  Text.trim_of_forall fun e he =>
    Text.isBlank_of_isAlpha (Text.isAlpha_of_toLower (hU.letters u e he))

end Spellable

/-- The text is the symbol of the unit in some ASCII case. -/
def Spells (u : U) (suffix : List Char) : Prop :=
  Text.sameIgnoringCase (symbol u).toList suffix = true

theorem Spells.letters (hU : Spellable U) {u : U} (h : Spells u suffix) :
    ∀ c ∈ suffix, c.isAlpha = true :=
  Text.isAlpha_of_sameIgnoringCase (hU.letters u) h

theorem Spells.trim (hU : Spellable U) {u : U} (h : Spells u suffix) : Text.trim suffix = suffix :=
  Text.trim_of_forall fun c hc => Text.isBlank_of_isAlpha (h.letters hU c hc)

/-- A suffix without white space around it names the one unit whose symbol it spells. -/
theorem named?_eq_some (hU : Spellable U) {u : U} (htrim : Text.trim suffix = suffix) :
    named? suffix = some u ↔ Spells u suffix := by
  constructor
  · intro h
    have hsame := List.find?_some h
    rwa [htrim] at hsame
  · intro h
    rw [← hU.named u]
    simp only [named?, htrim, hU.trim_symbol, Text.sameIgnoringCase, beq_iff_eq.mp h]

theorem named?_eq_none (hU : Spellable U) (htrim : Text.trim suffix = suffix) :
    (named? suffix : Option U) = none ↔ ∀ u : U, ¬Spells u suffix := by
  rw [Option.eq_none_iff_forall_ne_some]
  exact forall_congr' fun u => not_congr (named?_eq_some hU htrim)

/-- The character is the letter up to case: the Kelvin sign counts as a `k` and the long s as an
`s`. -/
inductive FoldsTo (e : Char) : Char → Prop
  | ascii {c : Char} (h : e.toLower = c.toLower) : FoldsTo e c
  | kelvin (h : e.toLower = 'k') : FoldsTo e '\u212a'
  | longS (h : e.toLower = 's') : FoldsTo e '\u017f'

/-- The text looks like the symbol of the unit up to case. -/
def FoldsToSymbol (u : U) (suffix : List Char) : Prop :=
  List.Forall₂ FoldsTo (symbol u).toList suffix

theorem Spells.folds {u : U} (h : Spells u suffix) : FoldsToSymbol u suffix := by
  have hsame := beq_iff_eq.mp h
  rw [← List.forall₂_eq_eq_eq, List.forall₂_map_left_iff, List.forall₂_map_right_iff] at hsame
  exact hsame.imp fun _ _ => .ascii

theorem foldsTo_iff {e c : Char} (he : e.toLower.isAlpha = true) :
    FoldsTo e c ↔ e.toLower = Literal.foldCase c := by
  constructor
  · intro h
    cases h with
    | ascii h =>
        rw [h] at he ⊢
        have hrange := Text.toNat_of_isAlpha (Text.isAlpha_of_toLower he)
        rw [Literal.foldCase, if_neg (by omega), if_neg (by omega)]
    | kelvin h => exact h
    | longS h => exact h
  · intro h
    rw [Literal.foldCase] at h
    split at h
    · rename_i hkelvin
      obtain rfl : c = '\u212a' := Char.toNat_inj.mp hkelvin
      exact .kelvin h
    · split at h
      · rename_i hlong
        obtain rfl : c = '\u017f' := Char.toNat_inj.mp hlong
        exact .longS h
      · exact .ascii h

theorem foldsToUnit_iff (hU : Spellable U) :
    Literal.foldsToUnit U suffix = true ↔ ∃ u : U, FoldsToSymbol u suffix := by
  rw [Literal.foldsToUnit, List.any_eq_true]
  constructor
  · rintro ⟨u, -, hsame⟩
    have hsame := beq_iff_eq.mp hsame
    rw [← List.forall₂_eq_eq_eq, List.forall₂_map_left_iff, List.forall₂_map_right_iff] at hsame
    refine ⟨u, ((List.forall₂_and_left _ _).mpr ⟨hU.letters u, hsame⟩).imp ?_⟩
    exact fun e c h => (foldsTo_iff h.1).mpr h.2
  · rintro ⟨u, hfolds⟩
    refine ⟨u, hU.mem_all u, beq_iff_eq.mpr ?_⟩
    refine Outcome.map_eq_map_of_forall₂ ?_
    exact ((List.forall₂_and_left _ _).mpr ⟨hU.letters u, hfolds⟩).imp
      fun e c h => (foldsTo_iff h.1).mp h.2

/-- A character that stands for a letter is no white space, no digit and no point. -/
theorem FoldsTo.plain {e c : Char} (he : e.toLower.isAlpha = true) (h : FoldsTo e c) :
    Literal.Plain c := by
  cases h with
  | ascii h =>
      rw [h] at he
      exact Literal.plain_of_isAlpha (Text.isAlpha_of_toLower he)
  | kelvin => exact ⟨by decide, by decide, by decide⟩
  | longS => exact ⟨by decide, by decide, by decide⟩

theorem FoldsToSymbol.plain (hU : Spellable U) {u : U} (h : FoldsToSymbol u suffix) :
    ∀ c ∈ suffix, Literal.Plain c := by
  intro c hc
  obtain ⟨e, he, hfolds⟩ := Outcome.exists_mem_of_forall₂ h c hc
  exact hfolds.plain (hU.letters u e he)

theorem FoldsToSymbol.nonempty (hU : Spellable U) {u : U} (h : FoldsToSymbol u suffix) :
    suffix ≠ [] := by
  rintro rfl
  exact hU.nonempty u (List.forall₂_nil_right_iff.mp h)

end RowRecipe
