import RowRecipe.Proofs.Json.Numbers
import RowRecipe.Proofs.Quantity.Verdicts

/-!
Quantities however they come about, and what is no quantity. Whether it was read from a text or made
from a magnitude, the text of a quantity ends in the symbol of its unit. No symbol of a size ends like
one of a duration, so neither is ever read as the other. Numbers and words lack a unit or a magnitude.
-/

namespace RowRecipe.Quantity

open UnitFamily

variable {U V : Type} [UnitFamily U] [UnitFamily V] {cs number suffix : List Char} {u : U} {v : V}

/-- A quantity is read from a text, or made of a magnitude in some unit or of a count of base units, or
it comes from another one by going over to a unit. -/
inductive Made [DecidableEq U] : Quantity U → Prop
  | text {text : String} {q : Quantity U} (h : parse text = .ok q) : Made q
  | magnitude (value : Binary64) (unit : U) : Made (ofValue value unit)
  | count (n : Nat) : Made (ofCount n)
  | converted {q : Quantity U} (h : Made q) (target : U) : Made (q.inUnit target)

/-- But for white space behind it, the text ends in the symbol of the unit, in any ASCII case. -/
def EndsIn (u : U) (cs : List Char) : Prop :=
  ∃ first suffix after, cs = first ++ suffix ++ after ∧ Spells u suffix ∧
    ∀ c ∈ after, Text.isBlank c = true

/-- No unit of one family ends in the letter that a unit of the other ends in. -/
def EndApart (U V : Type) [UnitFamily U] [UnitFamily V] : Prop :=
  ∀ (u : U) (v : V), ((symbol u).toList.map Char.toLower).getLast? ≠
    ((symbol v).toList.map Char.toLower).getLast?

theorem endApart_byteUnit_timeUnit : EndApart ByteUnit TimeUnit := by
  intro u v
  cases u <;> cases v <;> decide

theorem EndApart.symm (h : EndApart U V) : EndApart V U :=
  fun v u => (h u v).symm

/-- The last character that is no white space. -/
def lastMark? (cs : List Char) : Option Char := cs.reverse.find? fun c => !Text.isBlank c

theorem EndsIn.lastMark? (hU : Spellable U) (h : EndsIn u cs) :
    (lastMark? cs).map Char.toLower = ((symbol u).toList.map Char.toLower).getLast? := by
  obtain ⟨first, suffix, after, rfl, hspells, hafter⟩ := h
  have hnone : (after.reverse.find? fun c => !Text.isBlank c) = none := by
    refine List.find?_eq_none.mpr fun c hc => ?_
    rw [hafter c (List.mem_reverse.mp hc)]
    decide
  have hsame : (symbol u).toList.map Char.toLower = suffix.map Char.toLower := beq_iff_eq.mp hspells
  obtain ⟨init, c, rfl⟩ : ∃ init c, suffix = init ++ [c] :=
    (List.eq_nil_or_concat' suffix).resolve_left (hspells.folds.nonempty hU)
  have hmark : (!Text.isBlank c) = true := by
    rw [Text.isBlank_of_isAlpha (hspells.letters hU c (by simp))]
    rfl
  rw [Quantity.lastMark?, List.reverse_append, List.find?_append, hnone, Option.none_or,
    List.reverse_append, List.reverse_concat, List.cons_append,
    List.find?_cons_of_pos (p := fun c => !Text.isBlank c) hmark, hsame,
    List.map_append, List.map_singleton, List.getLast?_concat]
  rfl

theorem EndsIn.apart (hU : Spellable U) (hV : Spellable V) (hUV : EndApart U V) (hu : EndsIn u cs) :
    ¬EndsIn v cs :=
  fun hv => hUV u v ((hu.lastMark? hU).symm.trans (hv.lastMark? hV))

theorem Reads.endsIn (h : Reads u cs number suffix) : EndsIn u cs := by
  obtain ⟨before, between, after, rfl, -, -, hafter⟩ := h.shape.parts
  exact ⟨before ++ number ++ between, suffix, after, rfl, h.spelled, hafter⟩

theorem endsIn_ofValue (value : Binary64) (u : U) : EndsIn u (ofValue value u).text.toList := by
  refine ⟨value.toText.toList, (symbol u).toList, [], ?_, beq_self_eq_true _, List.forall_mem_nil _⟩
  rw [ofValue, String.toList_append, List.append_nil]

theorem Made.endsIn [DecidableEq U] (hU : Spellable U) {q : Quantity U} (h : q.Made) :
    EndsIn q.unit q.text.toList := by
  induction h with
  | text h =>
      obtain ⟨htext, number, suffix, hreads, -⟩ := (classified_of_spellable hU _).kept _ h
      rw [htext]
      exact hreads.endsIn
  | magnitude value unit => exact endsIn_ofValue value unit
  | count n => exact endsIn_ofValue _ base
  | converted h target ih =>
      rw [inUnit]
      split
      · exact ih
      · exact endsIn_ofValue _ target

theorem exists_error_iff (hU : Spellable U) (text : String) :
    (∃ e, (parse text : Except UnitError (Quantity U)) = .error e) ↔
      ∀ (u : U) (number suffix : List Char), ¬Reads u text.toList number suffix := by
  have haccepted := (classified_of_spellable hU text).accepted
  constructor
  · rintro ⟨e, he⟩ u number suffix hreads
    obtain ⟨q, hq⟩ := haccepted.mpr ⟨u, number, suffix, hreads⟩
    rw [he] at hq
    cases hq
  · intro h
    cases hparse : (parse text : Except UnitError (Quantity U)) with
    | error e => exact ⟨e, rfl⟩
    | ok q =>
        obtain ⟨u, number, suffix, hreads⟩ := haccepted.mp ⟨q, hparse⟩
        exact absurd hreads (h u number suffix)

/-- A quantity of one family is none of the other. -/
theorem Made.refused [DecidableEq U] (hU : Spellable U) (hV : Spellable V) (hUV : EndApart U V)
    {q : Quantity U} (h : q.Made) : ∃ e, (parse q.text : Except UnitError (Quantity V)) = .error e :=
  (exists_error_iff hV q.text).mpr fun _ _ _ hreads =>
    (h.endsIn hU).apart hU hV hUV hreads.endsIn

theorem Reads.exists_isDigit (h : Reads u cs number suffix) : ∃ c ∈ cs, c.isDigit = true := by
  obtain ⟨before, between, after, rfl, -⟩ := h.shape.parts
  obtain ⟨c, rest, rfl, hc⟩ := h.shape.decimal.head
  exact ⟨c, by simp, hc⟩

theorem Reads.exists_isAlpha (hU : Spellable U) (h : Reads u cs number suffix) :
    ∃ c ∈ cs, c.isAlpha = true := by
  obtain ⟨before, between, after, rfl, -⟩ := h.shape.parts
  obtain ⟨c, hc⟩ := List.exists_mem_of_ne_nil suffix (h.spelled.folds.nonempty hU)
  exact ⟨c, by simp [hc], h.spelled.letters hU c hc⟩

theorem refused_of_no_digit (hU : Spellable U) {text : String}
    (h : ∀ c ∈ text.toList, c.isDigit = false) :
    ∃ e, (parse text : Except UnitError (Quantity U)) = .error e := by
  refine (exists_error_iff hU text).mpr fun u number suffix hreads => ?_
  obtain ⟨c, hc, hdigit⟩ := hreads.exists_isDigit
  rw [h c hc] at hdigit
  cases hdigit

theorem refused_of_no_letter (hU : Spellable U) {text : String}
    (h : ∀ c ∈ text.toList, c.isAlpha = false) :
    ∃ e, (parse text : Except UnitError (Quantity U)) = .error e := by
  refine (exists_error_iff hU text).mpr fun u number suffix hreads => ?_
  obtain ⟨c, hc, hletter⟩ := hreads.exists_isAlpha hU
  rw [h c hc] at hletter
  cases hletter

theorem refused_of_blank (hU : Spellable U) {text : String} (h : Text.isBlankText text = true) :
    ∃ e, (parse text : Except UnitError (Quantity U)) = .error e := by
  rw [Text.isBlankText, List.all_eq_true] at h
  refine refused_of_no_digit hU fun c hc => ?_
  by_contra hdigit
  have hblank := h c hc
  rw [Text.isBlank_of_isDigit (Bool.eq_true_of_not_eq_false hdigit)] at hblank
  cases hblank

theorem refused_boolName (hU : Spellable U) (b : Bool) :
    ∃ e, (parse (boolName b) : Except UnitError (Quantity U)) = .error e := by
  refine refused_of_no_digit hU ?_
  cases b <;> simp [boolName]

theorem refused_int (hU : Spellable U) (i : Int) :
    ∃ e, (parse (toString i) : Except UnitError (Quantity U)) = .error e := by
  refine refused_of_no_letter hU fun c hc => ?_
  have htext : (toString i).toList = Binary64.signText (decide (i < 0)) ++ Nat.toDigits 10 i.natAbs :=
    Json.Number.text_integer i
  rw [htext] at hc
  rcases List.mem_append.mp hc with hc | hc
  · obtain rfl := Binary64.eq_minus_of_mem_signText hc
    rfl
  · exact Text.isAlpha_eq_false_of_isDecimalDigit
      (Text.isDecimalDigit_of_isDigit (Text.isDigit_toDigits _ c hc))

/-- Infinities and what is not a number have no digit, and all else has no letter. -/
theorem refused_float (hU : Spellable U) (x : Binary64) :
    ∃ e, (parse x.toText : Except UnitError (Quantity U)) = .error e := by
  cases x with
  | nan => exact refused_of_no_digit hU (by simp [Binary64.toText, Binary64.write])
  | infinite negative =>
      refine refused_of_no_digit hU ?_
      cases negative <;> simp [Binary64.toText, Binary64.write, Binary64.signText]
  | finite negative units h =>
      refine refused_of_no_letter hU fun c hc => ?_
      rw [Binary64.toText, String.toList_ofList, Binary64.write] at hc
      rcases List.mem_append.mp hc with hc | hc
      · obtain rfl := Binary64.eq_minus_of_mem_signText hc
        rfl
      · rcases Binary64.mem_magnitudeText_plain hc with hdigit | rfl
        · exact Text.isAlpha_eq_false_of_isDecimalDigit (Text.isDecimalDigit_of_isDigit hdigit)
        · rfl

end RowRecipe.Quantity
