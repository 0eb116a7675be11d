import RowRecipe.Binary64.Style
import RowRecipe.Proofs.Text.Classes
import RowRecipe.Proofs.Text.Digits

/-!
Reading a number part by part: its sign, its digits in front of the point, the ones behind it, and its
exponent. All of them are graphic characters of ASCII.
-/

namespace RowRecipe.Binary64

theorem isAlpha_inf : ∀ e ∈ ['i', 'n', 'f'], e.toLower.isAlpha = true := by simp

theorem isAlpha_infinity :
    ∀ e ∈ ['i', 'n', 'f', 'i', 'n', 'i', 't', 'y'], e.toLower.isAlpha = true := by simp

theorem isAlpha_nan : ∀ e ∈ ['n', 'a', 'n'], e.toLower.isAlpha = true := by simp

/-- A text that does not start with a letter is none of the words that are read as numbers. -/
theorem sameIgnoringCase_eq_false {c : Char} {word : List Char} (hc : c.isAlpha = false)
    (rest : List Char) (hword : ∀ e ∈ word, e.toLower.isAlpha = true) :
    Text.sameIgnoringCase (c :: rest) word = false := by
  by_contra hsame
  rw [Bool.not_eq_false] at hsame
  have hletter := Text.isAlpha_of_sameIgnoringCase hword (Text.sameIgnoringCase_symm hsame) c
    List.mem_cons_self
  rw [hc] at hletter
  cases hletter

/-- What does not start with a letter behind its sign is read as a decimal. -/
theorem parse?_decimal {cs rest : List Char} {negative : Bool} {c : Char}
    (hsign : takeSign cs = (negative, c :: rest)) (hc : c.isAlpha = false) :
    parse? cs = (unsignedDecimal? (c :: rest)).map (ofDecimal negative) := by
  have hinf := sameIgnoringCase_eq_false hc rest isAlpha_inf
  have hinfinity := sameIgnoringCase_eq_false hc rest isAlpha_infinity
  have hnan := sameIgnoringCase_eq_false hc rest isAlpha_nan
  simp only [parse?, hsign, hinf, hinfinity, hnan, Bool.or_self, Bool.false_eq_true, if_false]

/-- Nothing is taken for a sign from in front of what is none. -/
theorem takeSign_eq_self {c : Char} (hminus : c ≠ '-') (hplus : c ≠ '+') (rest : List Char) :
    takeSign (c :: rest) = (false, c :: rest) := by
  unfold takeSign
  split
  · rename_i heq
    exact (hminus (List.cons.inj heq).1).elim
  · rename_i heq
    exact (hplus (List.cons.inj heq).1).elim
  · rfl

/-- A sign is taken from in front of a digit. -/
theorem takeSign_signText (negative : Bool) {c : Char} (hc : c.isDigit = true) (rest : List Char) :
    takeSign (signText negative ++ c :: rest) = (negative, c :: rest) := by
  cases negative with
  | true => rfl
  | false =>
      refine takeSign_eq_self ?_ ?_ rest
      · rintro rfl
        cases hc
      · rintro rfl
        cases hc

/-- A number whose first digit follows its sign is read as a decimal. -/
theorem parse?_signText (negative : Bool) {c : Char} (hc : c.isDigit = true) (rest : List Char) :
    parse? (signText negative ++ c :: rest) =
      (unsignedDecimal? (c :: rest)).map (ofDecimal negative) :=
  parse?_decimal (takeSign_signText negative hc rest)
    (Text.isAlpha_eq_false_of_isDecimalDigit (Text.isDecimalDigit_of_isDigit hc))

section Parts

variable {whole fraction rest : List Char} (hne : whole ≠ [])
  (hwhole : ∀ c ∈ whole, c.isDigit = true)

include hne hwhole

/-- Digits with no point behind them. -/
theorem unsignedDecimal?_whole (hrest : Text.StopsAt Char.isDigit rest)
    (hpoint : Text.StopsAt (· == '.') rest) :
    unsignedDecimal? (whole ++ rest) =
      (exponent? rest).map fun e => ⟨Text.digitsValue whole, e⟩ := by
  have htake := Text.takeWhile_append_of_stopsAt hwhole hrest
  have hdrop := Text.dropWhile_append_of_stopsAt hwhole hrest
  have hempty : whole.isEmpty = false := by simpa using hne
  have hfraction : takeFraction rest = ([], rest) := by
    unfold takeFraction
    split
    · have hdot := hpoint '.' rfl
      cases hdot
    · rfl
  simp only [unsignedDecimal?, htake, hdrop, hfraction, hempty, List.append_nil, List.length_nil,
    Bool.false_and, Bool.false_eq_true, if_false, Nat.cast_zero, Int.sub_zero]

/-- Digits on both sides of a point; behind it there may be none. -/
theorem unsignedDecimal?_point (hfraction : ∀ c ∈ fraction, c.isDigit = true)
    (hrest : Text.StopsAt Char.isDigit rest) :
    unsignedDecimal? (whole ++ '.' :: (fraction ++ rest)) =
      (exponent? rest).map fun e => ⟨Text.digitsValue (whole ++ fraction), e - fraction.length⟩ := by
  have hpoint : Text.StopsAt Char.isDigit ('.' :: (fraction ++ rest)) :=
    Text.stopsAt_cons (by decide) _
  have htake := Text.takeWhile_append_of_stopsAt hwhole hpoint
  have hdrop := Text.dropWhile_append_of_stopsAt hwhole hpoint
  have htakeFraction := Text.takeWhile_append_of_stopsAt hfraction hrest
  have hdropFraction := Text.dropWhile_append_of_stopsAt hfraction hrest
  have hempty : whole.isEmpty = false := by simpa using hne
  simp only [unsignedDecimal?, htake, hdrop, takeFraction, htakeFraction, hdropFraction, hempty,
    Bool.false_and, Bool.false_eq_true, if_false]

theorem unsignedDecimal?_digits : unsignedDecimal? whole = some ⟨Text.digitsValue whole, 0⟩ := by
  have hread := unsignedDecimal?_whole hne hwhole (Text.stopsAt_nil _) (Text.stopsAt_nil _)
  rw [List.append_nil] at hread
  exact hread

theorem unsignedDecimal?_fraction (hfraction : ∀ c ∈ fraction, c.isDigit = true) :
    unsignedDecimal? (whole ++ '.' :: fraction) =
      some ⟨Text.digitsValue (whole ++ fraction), -fraction.length⟩ := by
  have hread := unsignedDecimal?_point hne hwhole hfraction (Text.stopsAt_nil _)
  rw [List.append_nil] at hread
  have hexponent : exponent? [] = some 0 := rfl
  rw [hread, hexponent, Option.map_some, Int.zero_sub]

end Parts

/-- A character of ASCII that leaves a mark. -/
def IsGraphic (c : Char) : Prop := 33 ≤ c.toNat ∧ c.toNat < 128

instance (c : Char) : Decidable (IsGraphic c) :=
  inferInstanceAs (Decidable (33 ≤ c.toNat ∧ c.toNat < 128))

theorem IsGraphic.not_blank {c : Char} (h : IsGraphic c) : Text.isBlank c = false :=
  Text.isBlank_of_lt h.1 h.2

theorem IsGraphic.isDigit {c : Char} (h : IsGraphic c) (hdigit : Text.isDecimalDigit c = true) :
    c.isDigit = true := by
  by_contra hother
  rw [Text.isDecimalDigit_eq_false (by simpa using hother) h.2] at hdigit
  cases hdigit

variable {cs : List Char}

theorem isGraphic_of_takeSign (h : ∀ c ∈ (takeSign cs).2, IsGraphic c) : ∀ c ∈ cs, IsGraphic c := by
  unfold takeSign at h
  split at h
  · exact List.forall_mem_cons.mpr ⟨by decide, h⟩
  · exact List.forall_mem_cons.mpr ⟨by decide, h⟩
  · exact h

theorem isGraphic_of_digits (h : ∀ c ∈ cs, c.isDigit = true) : ∀ c ∈ cs, IsGraphic c := by
  intro c hc
  have hrange := Text.toNat_of_isDigit (h c hc)
  exact ⟨by omega, by omega⟩

theorem isGraphic_of_exponent? {e : Int} (h : exponent? cs = some e) : ∀ c ∈ cs, IsGraphic c := by
  cases cs with
  | nil => exact List.forall_mem_nil _
  | cons c rest =>
      rw [exponent?] at h
      split at h
      · rename_i hletter
        obtain ⟨n, hn, -⟩ := Option.map_eq_some_iff.mp h
        obtain ⟨size, hsize, -⟩ := Option.bind_eq_some_iff.mp hn
        have hrest := isGraphic_of_takeSign (isGraphic_of_digits (Text.natural?_eq_some hsize).2.1)
        rcases (by simpa using hletter) with rfl | rfl
        · exact List.forall_mem_cons.mpr ⟨by decide, hrest⟩
        · exact List.forall_mem_cons.mpr ⟨by decide, hrest⟩
      · cases h

theorem isGraphic_of_takeFraction (h : ∀ c ∈ (takeFraction cs).2, IsGraphic c) :
    ∀ c ∈ cs, IsGraphic c := by
  unfold takeFraction at h
  split at h
  · rename_i rest
    refine List.forall_mem_cons.mpr ⟨by decide, ?_⟩
    rw [← List.takeWhile_append_dropWhile (p := Char.isDigit) (l := rest)]
    exact List.forall_mem_append.mpr
      ⟨isGraphic_of_digits fun _ hc => List.mem_takeWhile_imp hc, h⟩
  · exact h

theorem isGraphic_of_unsignedDecimal? {d : Decimal} (h : unsignedDecimal? cs = some d) :
    ∀ c ∈ cs, IsGraphic c := by
  rw [unsignedDecimal?] at h
  dsimp only at h
  split at h
  · cases h
  · obtain ⟨e, he, -⟩ := Option.map_eq_some_iff.mp h
    rw [← List.takeWhile_append_dropWhile (p := Char.isDigit) (l := cs)]
    exact List.forall_mem_append.mpr
      ⟨isGraphic_of_digits fun _ hc => List.mem_takeWhile_imp hc,
        isGraphic_of_takeFraction (isGraphic_of_exponent? he)⟩

theorem isGraphic_of_sameIgnoringCase {word : List Char}
    (hword : ∀ e ∈ word, e.toLower.isAlpha = true) (h : Text.sameIgnoringCase cs word = true) :
    ∀ c ∈ cs, IsGraphic c := by
  intro c hc
  have hrange := Text.toNat_of_isAlpha
    (Text.isAlpha_of_sameIgnoringCase hword (Text.sameIgnoringCase_symm h) c hc)
  exact ⟨by omega, by omega⟩

theorem isGraphic_of_parse? {x : Binary64} (h : parse? cs = some x) : ∀ c ∈ cs, IsGraphic c := by
  apply isGraphic_of_takeSign
  rw [parse?] at h
  dsimp only at h
  split at h
  · rename_i hinfinity
    rcases Bool.or_eq_true_iff.mp hinfinity with hsame | hsame
    · exact isGraphic_of_sameIgnoringCase isAlpha_inf hsame
    · exact isGraphic_of_sameIgnoringCase isAlpha_infinity hsame
  · split at h
    · rename_i hnan
      exact isGraphic_of_sameIgnoringCase isAlpha_nan hnan
    · obtain ⟨d, hd, -⟩ := Option.map_eq_some_iff.mp h
      exact isGraphic_of_unsignedDecimal? hd

theorem not_blank_of_parse? {x : Binary64} (h : parse? cs = some x) :
    ∀ c ∈ cs, Text.isBlank c = false :=
  fun c hc => (isGraphic_of_parse? h c hc).not_blank

end RowRecipe.Binary64
