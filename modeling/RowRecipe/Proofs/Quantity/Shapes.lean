import RowRecipe.Proofs.Lexeme.Shapes
import RowRecipe.Quantity.Literal

/-!
The shape of a literal: digits with at most one point among them, and a suffix, with white space
around and between. A text has its shape in one way only, as long as the suffix has none of the
characters that may stand elsewhere.
-/

namespace RowRecipe.Literal

open Text

variable {digit : Char → Bool} {cs number suffix : List Char}

/-- Digits, and maybe a point and more digits. -/
inductive DecimalOf (digit : Char → Bool) : List Char → Prop
  | whole {digits : List Char} (hne : digits ≠ []) (hdigits : ∀ c ∈ digits, digit c = true) :
      DecimalOf digit digits
  | fraction {digits more : List Char} (hne : digits ≠ []) (hdigits : ∀ c ∈ digits, digit c = true)
      (hne' : more ≠ []) (hmore : ∀ c ∈ more, digit c = true) :
      DecimalOf digit (digits ++ '.' :: more)

theorem DecimalOf.imp {digit' : Char → Bool} (h : DecimalOf digit number)
    (himp : ∀ c ∈ number, digit c = true → digit' c = true) : DecimalOf digit' number := by
  cases h with
  | whole hne hdigits => exact .whole hne fun c hc => himp c hc (hdigits c hc)
  | fraction hne hdigits hne' hmore =>
      refine .fraction hne (fun c hc => ?_) hne' (fun c hc => ?_)
      · exact himp c (List.mem_append_left _ hc) (hdigits c hc)
      · exact himp c (List.mem_append_right _ (List.mem_cons_of_mem _ hc)) (hmore c hc)

/-- With the digits of ASCII, it is the decimal that a number has. -/
theorem decimalOf_isDigit_iff : DecimalOf Char.isDigit number ↔ Lexeme.IsDecimal number := by
  constructor
  · intro h
    cases h with
    | whole hne hdigits => exact .whole hne hdigits
    | fraction hne hdigits hne' hmore => exact .fraction hne hdigits hne' hmore
  · intro h
    cases h with
    | whole hne hdigits => exact .whole hne hdigits
    | fraction hne hdigits hne' hmore => exact .fraction hne hdigits hne' hmore

/-- A decimal starts with a digit. -/
theorem DecimalOf.head (h : DecimalOf digit number) :
    ∃ c rest, number = c :: rest ∧ digit c = true := by
  cases h with
  | whole hne hdigits =>
      rw [← List.append_nil number]
      exact exists_head_of_forall hne hdigits []
  | fraction hne hdigits => exact exists_head_of_forall hne hdigits _

/-- The text is a number and a suffix, with white space around and between them. -/
structure Shape (digit : Char → Bool) (cs number suffix : List Char) : Prop where
  decimal : DecimalOf digit number
  parts : ∃ before between after : List Char, cs = before ++ number ++ between ++ suffix ++ after ∧
    (∀ c ∈ before, isBlank c = true) ∧ (∀ c ∈ between, isBlank c = true) ∧
    ∀ c ∈ after, isBlank c = true

theorem Shape.ofAscii (h : Shape Char.isDigit cs number suffix) :
    Shape isDecimalDigit cs number suffix :=
  ⟨h.decimal.imp fun _ _ => isDecimalDigit_of_isDigit, h.parts⟩

theorem Shape.ascii (h : Shape isDecimalDigit cs number suffix)
    (hnumber : DecimalOf Char.isDigit number) : Shape Char.isDigit cs number suffix :=
  ⟨hnumber, h.parts⟩

/-- Trimming takes white space away from both ends. -/
theorem exists_trim (cs : List Char) : ∃ before after, cs = before ++ trim cs ++ after ∧
    (∀ c ∈ before, isBlank c = true) ∧ ∀ c ∈ after, isBlank c = true := by
  have hend : trimStart cs =
      trim cs ++ ((trimStart cs).reverse.takeWhile isBlank).reverse := by
    rw [trim, trimEnd, ← List.reverse_append, List.takeWhile_append_dropWhile, List.reverse_reverse]
  refine ⟨cs.takeWhile isBlank, ((trimStart cs).reverse.takeWhile isBlank).reverse, ?_,
    fun c hc => List.mem_takeWhile_imp hc,
    fun c hc => List.mem_takeWhile_imp (List.mem_reverse.mp hc)⟩
  rw [List.append_assoc, ← hend, trimStart, List.takeWhile_append_dropWhile]

/-- What is taken for a fraction makes a decimal of the digits in front of it. -/
theorem decimalOf_takeFraction {digits : List Char} (rest : List Char) (hne : digits ≠ [])
    (hdigits : ∀ c ∈ digits, isDecimalDigit c = true) :
    DecimalOf isDecimalDigit (digits ++ (takeFraction rest).1) ∧
      (takeFraction rest).1 ++ (takeFraction rest).2 = rest := by
  unfold takeFraction
  split
  · rename_i more
    dsimp only
    split
    · rw [List.append_nil]
      exact ⟨.whole hne hdigits, rfl⟩
    · rename_i hempty
      refine ⟨.fraction hne hdigits (by simpa using hempty) fun c hc => List.mem_takeWhile_imp hc, ?_⟩
      rw [List.cons_append, List.takeWhile_append_dropWhile]
  · rw [List.append_nil]
    exact ⟨.whole hne hdigits, rfl⟩

theorem shape_of_split? (h : split? cs = some ⟨number, suffix⟩) :
    Shape isDecimalDigit cs number suffix := by
  rw [split?] at h
  dsimp only at h
  split at h
  · cases h
  · rename_i hempty
    obtain ⟨rfl, rfl⟩ := Literal.mk.inj (Option.some.inj h)
    obtain ⟨hdecimal, hrest⟩ := decimalOf_takeFraction
      ((trimStart cs).dropWhile isDecimalDigit) (by simpa using hempty)
      (fun c hc => List.mem_takeWhile_imp hc)
    obtain ⟨between, after, htrim, hbetween, hafter⟩ := exists_trim
      (takeFraction ((trimStart cs).dropWhile isDecimalDigit)).2
    refine ⟨hdecimal, cs.takeWhile isBlank, between, after, ?_,
      fun c hc => List.mem_takeWhile_imp hc, hbetween, hafter⟩
    calc cs = cs.takeWhile isBlank ++ ((trimStart cs).takeWhile isDecimalDigit ++
          ((takeFraction ((trimStart cs).dropWhile isDecimalDigit)).1 ++
            (takeFraction ((trimStart cs).dropWhile isDecimalDigit)).2)) := by
          rw [hrest, List.takeWhile_append_dropWhile, trimStart, List.takeWhile_append_dropWhile]
      _ = _ := by
          conv_lhs => rw [htrim]
          simp only [List.append_assoc]

/-- A character that is no white space, no digit and no point. -/
structure Plain (c : Char) : Prop where
  blank : isBlank c = false
  digit : isDecimalDigit c = false
  point : c ≠ '.'

theorem plain_of_isAlpha {c : Char} (h : c.isAlpha = true) : Plain c := by
  have hrange := toNat_of_isAlpha h
  refine ⟨isBlank_of_isAlpha h,
    isDecimalDigit_eq_false (isDigit_eq_false_of_isAlpha h) (by omega), ?_⟩
  rintro rfl
  exact absurd h (by decide)

theorem isDecimalDigit_of_isBlank {c : Char} (h : isBlank c = true) : isDecimalDigit c = false := by
  by_contra hdigit
  rw [Bool.not_eq_false, isDecimalDigit, List.any_eq_true] at hdigit
  obtain ⟨first, hfirst, hrange⟩ := hdigit
  rw [Bool.and_eq_true, decide_eq_true_eq, decide_eq_true_eq] at hrange
  -- The digits of a script stand together, and white space stands between scripts.
  have hscripts : ∀ first ∈ zeroDigits, first = 0x30 ∨ (0xA0 < first ∧ first + 10 ≤ 0x1680) ∨
      (0x1680 < first ∧ first + 10 ≤ 0x2000) ∨ 0x3000 < first := by decide
  have hscript := hscripts first hfirst
  simp only [isBlank, Bool.or_eq_true, Bool.and_eq_true, decide_eq_true_eq, beq_iff_eq] at h
  omega

/-- Behind the number, white space and the suffix start with neither a digit nor a point. -/
theorem stops_of_plain {between after : List Char} (hbetween : ∀ c ∈ between, isBlank c = true)
    (hsuffix : ∀ c ∈ suffix, Plain c) (hafter : ∀ c ∈ after, isBlank c = true) :
    ∀ c ∈ between ++ suffix ++ after, isDecimalDigit c = false ∧ c ≠ '.' := by
  have hblank : ∀ {c : Char}, isBlank c = true → isDecimalDigit c = false ∧ c ≠ '.' := by
    intro c hc
    refine ⟨isDecimalDigit_of_isBlank hc, ?_⟩
    rintro rfl
    exact absurd hc (by decide)
  intro c hc
  rcases List.mem_append.mp hc with hc | hc
  · rcases List.mem_append.mp hc with hc | hc
    · exact hblank (hbetween c hc)
    · exact ⟨(hsuffix c hc).digit, (hsuffix c hc).point⟩
  · exact hblank (hafter c hc)

/-- A number is taken whole, and with it the text splits into the number and what is left. -/
theorem split?_of_decimal {before rest : List Char} (hbefore : ∀ c ∈ before, isBlank c = true)
    (hnumber : DecimalOf isDecimalDigit number)
    (hrest : ∀ c ∈ rest, isDecimalDigit c = false ∧ c ≠ '.') :
    split? (before ++ number ++ rest) = some ⟨number, trim rest⟩ := by
  have hstops : StopsAt isDecimalDigit rest := stopsAt_of_forall fun c hc => (hrest c hc).1
  have hfraction : takeFraction rest = ([], rest) := by
    unfold takeFraction
    split
    · exact absurd rfl (hrest '.' List.mem_cons_self).2
    · rfl
  have hstart : trimStart (before ++ number ++ rest) = number ++ rest := by
    obtain ⟨c, more, rfl, hc⟩ := hnumber.head
    rw [List.append_assoc]
    refine dropWhile_append_of_stopsAt hbefore (stopsAt_cons ?_ _)
    by_contra hblank
    rw [isDecimalDigit_of_isBlank (by simpa using hblank)] at hc
    cases hc
  cases hnumber with
  | whole hne hdigits =>
      have htake := takeWhile_append_of_stopsAt hdigits hstops
      have hdrop := dropWhile_append_of_stopsAt hdigits hstops
      have hempty : number.isEmpty = false := by simpa using hne
      simp only [split?, hstart, htake, hdrop, hempty, hfraction, Bool.false_eq_true, if_false,
        List.append_nil]
  | @fraction digits more hne hdigits hne' hmore =>
      have hpoint : StopsAt isDecimalDigit ('.' :: (more ++ rest)) := stopsAt_cons (by decide) _
      have htake := takeWhile_append_of_stopsAt hdigits hpoint
      have hdrop := dropWhile_append_of_stopsAt hdigits hpoint
      have hmoreTake := takeWhile_append_of_stopsAt hmore hstops
      have hmoreDrop := dropWhile_append_of_stopsAt hmore hstops
      have hempty : digits.isEmpty = false := by simpa using hne
      have hempty' : more.isEmpty = false := by simpa using hne'
      rw [List.append_assoc digits, List.cons_append] at hstart
      simp only [split?, hstart, htake, hdrop, hempty, takeFraction, hmoreTake, hmoreDrop, hempty',
        Bool.false_eq_true, if_false]

/-- Trimming gives back what has no white space in it. -/
theorem trim_between {before middle after : List Char} (hbefore : ∀ c ∈ before, isBlank c = true)
    (hmiddle : ∀ c ∈ middle, isBlank c = false) (hne : middle ≠ [])
    (hafter : ∀ c ∈ after, isBlank c = true) : trim (before ++ middle ++ after) = middle := by
  have hstops : StopsAt isBlank (middle ++ after) := by
    obtain ⟨c, rest, rfl⟩ := List.exists_cons_of_ne_nil hne
    exact stopsAt_cons (hmiddle c List.mem_cons_self) _
  have hstops' : StopsAt isBlank middle.reverse :=
    stopsAt_of_forall fun c hc => hmiddle c (List.mem_reverse.mp hc)
  have hafter' : ∀ c ∈ after.reverse, isBlank c = true :=
    fun c hc => hafter c (List.mem_reverse.mp hc)
  rw [trim, trimStart, List.append_assoc, dropWhile_append_of_stopsAt hbefore hstops, trimEnd,
    List.reverse_append, dropWhile_append_of_stopsAt hafter' hstops', List.reverse_reverse]

/-- A text of a shape whose suffix is plain splits into the number and the suffix. -/
theorem Shape.split? (h : Shape isDecimalDigit cs number suffix) (hsuffix : ∀ c ∈ suffix, Plain c)
    (hne : suffix ≠ []) : Literal.split? cs = some ⟨number, suffix⟩ := by
  obtain ⟨before, between, after, rfl, hbefore, hbetween, hafter⟩ := h.parts
  have hsplit := split?_of_decimal hbefore h.decimal (stops_of_plain hbetween hsuffix hafter)
  have htrim := trim_between hbetween (fun c hc => (hsuffix c hc).blank) hne hafter
  rw [htrim] at hsplit
  rw [← hsplit]
  simp only [List.append_assoc]

/-- A text has its number and a plain suffix in one way only. -/
theorem Shape.unique {number' suffix' : List Char} (h : Shape isDecimalDigit cs number suffix)
    (hsuffix : ∀ c ∈ suffix, Plain c) (hne : suffix ≠ [])
    (h' : Shape isDecimalDigit cs number' suffix') (hsuffix' : ∀ c ∈ suffix', Plain c)
    (hne' : suffix' ≠ []) : number' = number ∧ suffix' = suffix := by
  have hsplit := (h'.split? hsuffix' hne').symm.trans (h.split? hsuffix hne)
  exact Literal.mk.inj (Option.some.inj hsplit)

end RowRecipe.Literal
