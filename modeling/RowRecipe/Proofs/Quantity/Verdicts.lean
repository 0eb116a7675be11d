import RowRecipe.Proofs.Quantity.Literals
import RowRecipe.Proofs.Quantity.Units

/-!
What becomes of every text that is to be a quantity. It is one when it writes an ASCII number in a
unit; it is in an unknown unit when it has the shape of a quantity and a suffix that could be a unit;
everything else is no quantity at all. No text is both a byte size and a duration.
-/

namespace RowRecipe.Quantity

open UnitFamily Literal

variable {U : Type} [UnitFamily U] {cs number suffix : List Char} {text : String}

/-- The text writes a number in a unit, with digits of ASCII and the symbol of the unit in any ASCII
case. -/
structure Reads (u : U) (cs number suffix : List Char) : Prop where
  shape : Shape Char.isDigit cs number suffix
  spelled : Spells u suffix

/-- The text has the shape of a quantity, in a unit that is none of the family. Any letters of ASCII
could be a unit, and so could what looks like a symbol when only its letters are not of ASCII. -/
inductive InUnknownUnit (U : Type) [UnitFamily U] (cs suffix : List Char) : Prop
  | word {number : List Char} (hshape : Shape Text.isDecimalDigit cs number suffix)
      (hletters : Lexeme.IsSuffix suffix) (hnone : ∀ u : U, ¬Spells u suffix)
  | folded {number : List Char} (hshape : Shape Char.isDigit cs number suffix)
      (hfolds : ∃ u : U, FoldsToSymbol u suffix) (hnone : ∀ u : U, ¬Spells u suffix)

theorem parse_of_reads (hU : Spellable U) {u : U} (h : Reads u text.toList number suffix) :
    ∃ value, Binary64.parse? number = some value ∧ parse text = .ok ⟨text, value, u⟩ := by
  obtain ⟨value, hvalue⟩ := Option.isSome_iff_exists.mp
    ((parse?_isSome_iff h.shape.ofAscii.decimal).mpr h.shape.decimal)
  have hfolds : FoldsToSymbol u suffix := h.spelled.folds
  have hsplit := h.shape.ofAscii.split? (hfolds.plain hU) (hfolds.nonempty hU)
  have hnamed := (named?_eq_some hU (h.spelled.trim hU)).mpr h.spelled
  refine ⟨value, hvalue, ?_⟩
  simp only [parse, hsplit, (foldsToUnit_iff hU).mpr ⟨u, hfolds⟩, hvalue, hnamed, if_true]

theorem parse_of_inUnknownUnit (hU : Spellable U) (h : InUnknownUnit U text.toList suffix) :
    (parse text : Except UnitError (Quantity U)) =
      .error (.unrecognizedUnit (kind U) (String.ofList suffix) text) := by
  cases h with
  | word hshape hletters hnone =>
      have hplain : ∀ c ∈ suffix, Plain c := fun c hc => plain_of_isAlpha (hletters.letters c hc)
      have hsplit := hshape.split? hplain hletters.nonempty
      have hnamed := (named?_eq_none hU
        (Text.trim_of_forall fun c hc => (hplain c hc).blank)).mpr hnone
      have hfolds : foldsToUnit U suffix = false := by
        rw [foldsToUnit_of_isSuffix U hletters, hnamed, Option.isSome_none]
      simp only [parse, hsplit, hfolds, isWord_of_isSuffix hletters, if_true, Bool.false_eq_true,
        if_false]
  | folded hshape hfolds hnone =>
      obtain ⟨u, hu⟩ := hfolds
      obtain ⟨value, hvalue⟩ := Option.isSome_iff_exists.mp
        ((parse?_isSome_iff hshape.ofAscii.decimal).mpr hshape.decimal)
      have hplain := hu.plain hU
      have hsplit := hshape.ofAscii.split? hplain (hu.nonempty hU)
      have hnamed := (named?_eq_none hU
        (Text.trim_of_forall fun c hc => (hplain c hc).blank)).mpr hnone
      simp only [parse, hsplit, (foldsToUnit_iff hU).mpr ⟨u, hu⟩, hvalue, hnamed, if_true]

theorem isSuffix_of_isWord (h : isWord suffix = true) : Lexeme.IsSuffix suffix := by
  rw [isWord, Bool.and_eq_true, List.all_eq_true] at h
  exact ⟨by simpa using h.1, h.2⟩

/-- What a text looks like, beside the outcome that goes with it. -/
inductive Verdict (text : String) : Except UnitError (Quantity U) → Prop
  | accepted {u : U} {number suffix : List Char} {value : Binary64}
      (hreads : Reads u text.toList number suffix) (hvalue : Binary64.parse? number = some value) :
      Verdict text (.ok ⟨text, value, u⟩)
  | unknown {suffix : List Char} (h : InUnknownUnit U text.toList suffix) :
      Verdict text (.error (.unrecognizedUnit (kind U) (String.ofList suffix) text))
  | malformed : Verdict text (.error (.format (kind U) text))

theorem verdict_parse (hU : Spellable U) (text : String) :
    Verdict text (parse text : Except UnitError (Quantity U)) := by
  cases hsplit : split? text.toList with
  | none =>
      simp only [parse, hsplit]
      exact .malformed
  | some literal =>
      obtain ⟨number, suffix⟩ := literal
      have hshape := shape_of_split? hsplit
      cases hfolds : foldsToUnit U suffix with
      | true =>
          obtain ⟨u, hu⟩ := (foldsToUnit_iff hU).mp hfolds
          have htrim := Text.trim_of_forall fun c hc => (hu.plain hU c hc).blank
          cases hvalue : Binary64.parse? number with
          | none =>
              simp only [parse, hsplit, hfolds, hvalue, if_true]
              exact .malformed
          | some value =>
              have hsome : (Binary64.parse? number).isSome = true := by rw [hvalue, Option.isSome_some]
              have hascii := hshape.ascii ((parse?_isSome_iff hshape.decimal).mp hsome)
              cases hnamed : (named? suffix : Option U) with
              | none =>
                  simp only [parse, hsplit, hfolds, hvalue, hnamed, if_true]
                  exact .unknown (.folded hascii ⟨u, hu⟩ ((named?_eq_none hU htrim).mp hnamed))
              | some v =>
                  simp only [parse, hsplit, hfolds, hvalue, hnamed, if_true]
                  exact .accepted ⟨hascii, (named?_eq_some hU htrim).mp hnamed⟩ hvalue
      | false =>
          cases hword : isWord suffix with
          | true =>
              simp only [parse, hsplit, hfolds, hword, if_true, Bool.false_eq_true, if_false]
              refine .unknown (.word hshape (isSuffix_of_isWord hword) fun u hu => ?_)
              rw [(foldsToUnit_iff hU).mpr ⟨u, hu.folds⟩] at hfolds
              cases hfolds
          | false =>
              simp only [parse, hsplit, hfolds, hword, Bool.false_eq_true, if_false]
              exact .malformed

/-- The outcome for the text is settled by what the text looks like. -/
structure Classified (U : Type) [UnitFamily U] (text : String) : Prop where
  /-- The text is a quantity when it writes a number in a unit. -/
  accepted : (∃ q : Quantity U, parse text = .ok q) ↔
    ∃ (u : U) (number suffix : List Char), Reads u text.toList number suffix
  /-- The quantity keeps the text, and it has the number and the unit that are written there. -/
  kept : ∀ q : Quantity U, parse text = .ok q → q.text = text ∧ ∃ number suffix,
    Reads q.unit text.toList number suffix ∧ Binary64.parse? number = some q.value
  unknown : ∀ unit : String, (parse text : Except UnitError (Quantity U)) =
    .error (.unrecognizedUnit (kind U) unit text) ↔ InUnknownUnit U text.toList unit.toList
  malformed : (parse text : Except UnitError (Quantity U)) = .error (.format (kind U) text) ↔
    (¬∃ (u : U) (number suffix : List Char), Reads u text.toList number suffix) ∧
      ¬∃ suffix, InUnknownUnit U text.toList suffix
  /-- There is no other failure. -/
  failed : ∀ e : UnitError, (parse text : Except UnitError (Quantity U)) = .error e →
    e = .format (kind U) text ∨ ∃ unit, e = .unrecognizedUnit (kind U) unit text

theorem classified_of_spellable (hU : Spellable U) (text : String) : Classified U text := by
  have hverdict := verdict_parse hU text
  constructor
  case accepted =>
    constructor
    · rintro ⟨q, hq⟩
      rw [hq] at hverdict
      cases hverdict with
      | accepted hreads => exact ⟨_, _, _, hreads⟩
    · rintro ⟨u, number, suffix, hreads⟩
      obtain ⟨value, -, hparse⟩ := parse_of_reads hU hreads
      exact ⟨_, hparse⟩
  case kept =>
    intro q hq
    rw [hq] at hverdict
    cases hverdict with
    | accepted hreads hvalue => exact ⟨rfl, _, _, hreads, hvalue⟩
  case unknown =>
    intro unit
    constructor
    · intro hunit
      rw [hunit] at hverdict
      cases hverdict with
      | unknown h => rwa [String.toList_ofList]
    · intro h
      rw [parse_of_inUnknownUnit hU h, String.ofList_toList]
  case malformed =>
    constructor
    · intro hmalformed
      refine ⟨?_, ?_⟩
      · rintro ⟨u, number, suffix, hreads⟩
        obtain ⟨value, -, hparse⟩ := parse_of_reads hU hreads
        rw [hparse] at hmalformed
        cases hmalformed
      · rintro ⟨suffix, h⟩
        rw [parse_of_inUnknownUnit hU h] at hmalformed
        cases hmalformed
    · rintro ⟨hreads, hunknown⟩
      generalize (parse text : Except UnitError (Quantity U)) = outcome at hverdict ⊢
      cases hverdict with
      | accepted h => exact (hreads ⟨_, _, _, h⟩).elim
      | unknown h => exact (hunknown ⟨_, h⟩).elim
      | malformed => rfl
  case failed =>
    intro e he
    rw [he] at hverdict
    cases hverdict with
    | unknown => exact .inr ⟨_, rfl⟩
    | malformed => exact .inl rfl

/-- No suffix spells both a unit of size and a unit of time. -/
theorem not_spells_both (u : ByteUnit) (v : TimeUnit) (hu : Spells u suffix) :
    ¬Spells v suffix := by
  intro hv
  have hsame : (symbol u).toList.map Char.toLower = (symbol v).toList.map Char.toLower :=
    (beq_iff_eq.mp hu).trans (beq_iff_eq.mp hv).symm
  revert hsame
  cases u <;> cases v <;> decide

/-- A text is read in one shape only, so it is not read in two families. -/
theorem not_reads_both {u : ByteUnit} {v : TimeUnit} {number' suffix' : List Char}
    (hu : Reads u cs number suffix) : ¬Reads v cs number' suffix' := by
  intro hv
  have hplain : ∀ c ∈ suffix, Plain c := hu.spelled.folds.plain spellable_byteUnit
  have hplain' : ∀ c ∈ suffix', Plain c := hv.spelled.folds.plain spellable_timeUnit
  obtain ⟨-, rfl⟩ := hu.shape.ofAscii.unique hplain (hu.spelled.folds.nonempty spellable_byteUnit)
    hv.shape.ofAscii hplain' (hv.spelled.folds.nonempty spellable_timeUnit)
  exact not_spells_both u v hu.spelled hv.spelled

/-- Where a quantity may be missing, it is missing exactly when there is no text but white space; any
other text is read. -/
structure OptionallyRead (U : Type) [UnitFamily U] (input : Option String) : Prop where
  missing : (parseOptional input : Except UnitError (Option (Quantity U))) = .ok none ↔
    ∀ text, input = some text → ∀ c ∈ text.toList, Text.isBlank c = true
  present : ∀ text, input = some text → (∃ c ∈ text.toList, Text.isBlank c = false) →
    (parseOptional input : Except UnitError (Option (Quantity U))) = (parse text).map some

theorem optionallyRead (U : Type) [UnitFamily U] (input : Option String) :
    OptionallyRead U input := by
  cases input with
  | none =>
      constructor
      · refine ⟨fun _ text htext => ?_, fun _ => rfl⟩
        cases htext
      · intro text htext
        cases htext
  | some text =>
      have hblank : Text.isBlankText text = true ↔ ∀ c ∈ text.toList, Text.isBlank c = true := by
        rw [Text.isBlankText, List.all_eq_true]
      constructor
      · constructor
        · intro h text' htext
          obtain rfl := Option.some.inj htext
          by_contra hmark
          rw [parseOptional, if_neg (mt hblank.mp hmark)] at h
          obtain ⟨q, -, hq⟩ := Outcome.map_eq_ok.mp h
          cases hq
        · intro h
          rw [parseOptional, if_pos (hblank.mpr (h text rfl))]
      · rintro text' htext ⟨c, hc, hmark⟩
        obtain rfl := Option.some.inj htext
        rw [parseOptional, if_neg]
        intro h
        rw [hblank.mp h c hc] at hmark
        cases hmark

/-- The verdict on every text, for byte sizes and for durations. -/
theorem parse_classified (text : String) (input : Option String) :
    Classified ByteUnit text ∧ Classified TimeUnit text ∧
      (¬∃ (size : ByteSize) (duration : TimeDuration),
        parse text = .ok size ∧ parse text = .ok duration) ∧
      OptionallyRead ByteUnit input ∧ OptionallyRead TimeUnit input := by
  have hsize := classified_of_spellable spellable_byteUnit text
  have hduration := classified_of_spellable spellable_timeUnit text
  refine ⟨hsize, hduration, ?_, optionallyRead _ input, optionallyRead _ input⟩
  rintro ⟨size, duration, hs, hd⟩
  obtain ⟨u, _, _, hu⟩ := hsize.accepted.mp ⟨size, hs⟩
  obtain ⟨v, _, _, hv⟩ := hduration.accepted.mp ⟨duration, hd⟩
  exact not_reads_both hu hv

end RowRecipe.Quantity
