import RowRecipe.Proofs.Binary64.Reading
import RowRecipe.Proofs.Binary64.Shortest
import RowRecipe.Proofs.Text.Digits

/-!
What is written is read back. The digits of a number and the place of their point denote the decimal
that was chosen for it, in each of the forms in which they are written.
-/

namespace RowRecipe.Binary64

/-- The text is a number without a sign that denotes a decimal. -/
def Denotes (cs : List Char) (d : Decimal) : Prop :=
  (∃ c rest, cs = c :: rest ∧ c.isDigit = true) ∧
    ∃ d', unsignedDecimal? cs = some d' ∧ ∀ negative, ofDecimal negative d' = ofDecimal negative d

variable {digits : List Char} (hne : digits ≠ []) (hdigits : ∀ c ∈ digits, c.isDigit = true)

/-- What is read may have zeros behind the digits that are meant. -/
theorem denotes_of_read (zeros : Nat) {cs : List Char} {read value : Nat} {e exponent : Int}
    (hhead : ∃ c rest, cs = c :: rest ∧ c.isDigit = true)
    (hread : unsignedDecimal? cs = some ⟨read, e⟩) (hvalue : read = value * 10 ^ zeros)
    (hexponent : e + zeros = exponent) : Denotes cs ⟨value, exponent⟩ := by
  refine ⟨hhead, _, hread, fun negative => ?_⟩
  rw [hvalue, ofDecimal_mul_pow, hexponent]

theorem isDigit_zeros (n : Nat) : ∀ c ∈ List.replicate n '0', c.isDigit = true := by
  intro c hc
  rw [List.eq_of_mem_replicate hc]
  decide

/-- An exponent behind its letter, with its sign. -/
def exponentText (e : Int) : List Char :=
  'e' :: (if e < 0 then '-' else '+') :: Nat.toDigits 10 e.natAbs

theorem exponent?_exponentText (e : Int) : exponent? (exponentText e) = some e := by
  have hread := Text.natural?_toDigits e.natAbs
  unfold exponentText
  by_cases he : e < 0
  · rw [if_pos he]
    have habs : -(e.natAbs : Int) = e := by omega
    simp only [exponent?, takeSign, hread, decide_true, Bool.true_or, if_true]
    change some (-(e.natAbs : Int)) = some e
    rw [habs]
  · rw [if_neg he]
    have habs : (e.natAbs : Int) = e := by omega
    simp only [exponent?, takeSign, hread, decide_true, Bool.true_or, if_true,
      Bool.false_eq_true, if_false]
    change some (e.natAbs : Int) = some e
    rw [habs]

section Forms

include hne hdigits

theorem positionalText_denotes (keepsPoint : Bool) (point : Int) :
    Denotes (positionalText keepsPoint digits point)
      ⟨Text.digitsValue digits, point - digits.length⟩ := by
  unfold positionalText
  split
  · -- zeros in front of all digits
    rename_i hpoint
    have hwhole : ∀ c ∈ ['0'], c.isDigit = true := List.forall_mem_singleton.mpr (by decide)
    have hfraction : ∀ c ∈ List.replicate (-point).toNat '0' ++ digits, c.isDigit = true :=
      List.forall_mem_append.mpr ⟨isDigit_zeros _, hdigits⟩
    have hvalue : Text.digitsValue (['0'] ++ (List.replicate (-point).toNat '0' ++ digits)) =
        Text.digitsValue digits := by
      rw [← List.append_assoc]
      exact Text.digitsValue_zeros_append ((-point).toNat + 1) digits
    refine denotes_of_read 0 (Text.exists_head_of_forall (List.cons_ne_nil '0' []) hwhole _)
      (unsignedDecimal?_fraction (List.cons_ne_nil '0' []) hwhole hfraction) ?_ ?_
    · rw [hvalue, Nat.pow_zero, Nat.mul_one]
    · rw [List.length_append, List.length_replicate]
      omega
  · split
    · -- zeros behind all digits
      rename_i hpoint hlong
      have hwhole : ∀ c ∈ digits ++ List.replicate (point.toNat - digits.length) '0',
          c.isDigit = true := List.forall_mem_append.mpr ⟨hdigits, isDigit_zeros _⟩
      have hnonempty : digits ++ List.replicate (point.toNat - digits.length) '0' ≠ [] :=
        List.append_ne_nil_of_left_ne_nil hne _
      cases keepsPoint with
      | true =>
          have hzero : ∀ c ∈ ['0'], c.isDigit = true := List.forall_mem_singleton.mpr (by decide)
          refine denotes_of_read (point.toNat - digits.length + 1)
            (Text.exists_head_of_forall hnonempty hwhole _)
            (unsignedDecimal?_fraction hnonempty hwhole hzero) ?_ ?_
          · rw [List.append_assoc, ← List.replicate_succ', Text.digitsValue_append_zeros]
          · rw [List.length_singleton]
            omega
      | false =>
          refine denotes_of_read (point.toNat - digits.length)
            (Text.exists_head_of_forall hnonempty hwhole _)
            ((congrArg unsignedDecimal? (List.append_nil _)).trans
              (unsignedDecimal?_digits hnonempty hwhole)) (Text.digitsValue_append_zeros digits _) ?_
          omega
    · -- a point among the digits
      rename_i hpoint hshort
      have htake : digits.take point.toNat ≠ [] := by
        intro hnil
        have hlength := congrArg List.length hnil
        rw [List.length_take, List.length_nil] at hlength
        omega
      have hwhole : ∀ c ∈ digits.take point.toNat, c.isDigit = true :=
        fun c hc => hdigits c (List.mem_of_mem_take hc)
      have hfraction : ∀ c ∈ digits.drop point.toNat, c.isDigit = true :=
        fun c hc => hdigits c (List.mem_of_mem_drop hc)
      refine denotes_of_read 0 (Text.exists_head_of_forall htake hwhole _)
        (unsignedDecimal?_fraction htake hwhole hfraction) ?_ ?_
      · rw [List.take_append_drop, Nat.pow_zero, Nat.mul_one]
      · rw [List.length_drop]
        omega

theorem scientificText_denotes (point : Int) :
    Denotes (scientificText digits point) ⟨Text.digitsValue digits, point - digits.length⟩ := by
  obtain ⟨c, rest, rfl⟩ := List.exists_cons_of_ne_nil hne
  obtain ⟨hc, hrest⟩ := List.forall_mem_cons.mp hdigits
  have hwhole : ∀ d ∈ [c], d.isDigit = true := List.forall_mem_singleton.mpr hc
  have hexponent := exponent?_exponentText (point - 1)
  have hdigit : Text.StopsAt Char.isDigit (exponentText (point - 1)) :=
    Text.stopsAt_cons (by decide) _
  have hpoint : Text.StopsAt (· == '.') (exponentText (point - 1)) :=
    Text.stopsAt_cons (by decide) _
  have hread : unsignedDecimal? (scientificText (c :: rest) point) =
      some ⟨Text.digitsValue (c :: rest), point - 1 - rest.length⟩ := by
    cases rest with
    | nil =>
        have htext : scientificText [c] point = [c] ++ exponentText (point - 1) := rfl
        rw [htext, unsignedDecimal?_whole (List.cons_ne_nil c []) hwhole hdigit hpoint, hexponent,
          Option.map_some, List.length_nil, Nat.cast_zero, Int.sub_zero]
    | cons d more =>
        have htext : scientificText (c :: d :: more) point =
            [c] ++ '.' :: ((d :: more) ++ exponentText (point - 1)) := by
          rw [scientificText, List.append_assoc, List.append_assoc]
          rfl
        rw [htext, unsignedDecimal?_point (List.cons_ne_nil c []) hwhole hrest hdigit, hexponent,
          Option.map_some]
        rfl
  refine denotes_of_read 0 ⟨c, _, rfl, hc⟩ hread ?_ ?_
  · rw [Nat.pow_zero, Nat.mul_one]
  · rw [List.length_cons]
    omega

end Forms

/-- The digits of a decimal other than zero and their point denote it. -/
theorem digitsAndPoint_spec {d : Decimal} (hd : d.digits ≠ 0) :
    (digitsAndPoint d).1 ≠ [] ∧ (∀ c ∈ (digitsAndPoint d).1, c.isDigit = true) ∧
      ∀ negative, ofDecimal negative ⟨Text.digitsValue (digitsAndPoint d).1,
        (digitsAndPoint d).2 - (digitsAndPoint d).1.length⟩ = ofDecimal negative d := by
  obtain ⟨zeros, hzeros⟩ := Text.exists_zeros (Nat.toDigits 10 d.digits)
  change Nat.toDigits 10 d.digits = (digitsAndPoint d).1 ++ List.replicate zeros '0' at hzeros
  have hvalue := Text.digitsValue_toDigits d.digits
  rw [hzeros, Text.digitsValue_append_zeros] at hvalue
  have hpoint : (digitsAndPoint d).2 = (Nat.toDigits 10 d.digits).length + d.exponent := rfl
  rw [hzeros, List.length_append, List.length_replicate] at hpoint
  refine ⟨?_, ?_, fun negative => ?_⟩
  · intro hnil
    rw [hnil] at hvalue
    exact hd (hvalue.symm.trans (Nat.zero_mul _))
  · intro c hc
    apply Text.isDigit_toDigits d.digits
    rw [hzeros]
    exact List.mem_append_left _ hc
  · obtain ⟨n, exponent⟩ := d
    simp only at hvalue hpoint
    rw [← hvalue, ofDecimal_mul_pow, hvalue, hpoint]
    congr 2
    omega

/-- A magnitude is written as a decimal that is read as it. -/
theorem magnitudeText_denotes (style : Style) {units : Nat} (h : Representable units) :
    ∃ d, Denotes (magnitudeText style units) d ∧
      ∀ negative, ofDecimal negative d = .finite negative units h := by
  unfold magnitudeText
  by_cases hzero : units = 0
  · subst hzero
    rw [if_pos rfl]
    refine ⟨_, positionalText_denotes (List.cons_ne_nil '0' [])
      (List.forall_mem_singleton.mpr (by decide)) style.keepsPoint 1, fun negative => ?_⟩
    exact if_pos rfl
  · rw [if_neg hzero]
    have hreads := readsAs_shortest style.tie h
    have hdigits : (shortest style.tie units).digits ≠ 0 := by
      intro hnone
      have hread := ofDecimal_of_readsAs hreads h false
      rw [ofDecimal, if_pos hnone, zero] at hread
      exact hzero (Binary64.finite.inj hread).2.symm
    obtain ⟨hne, hall, hsame⟩ := digitsAndPoint_spec hdigits
    refine ⟨⟨Text.digitsValue (digitsAndPoint (shortest style.tie units)).1,
      (digitsAndPoint (shortest style.tie units)).2 -
        (digitsAndPoint (shortest style.tie units)).1.length⟩, ?_, fun negative => ?_⟩
    · dsimp only
      split
      · exact positionalText_denotes hne hall _ _
      · split
        · exact positionalText_denotes hne hall _ _
        · exact scientificText_denotes hne hall _
    · rw [hsame]
      exact ofDecimal_of_readsAs hreads h negative

/-- Every number is read back from what it is written as, whatever the style. -/
theorem parse?_write (style : Style) (x : Binary64) : parse? (write style x) = some x := by
  cases x with
  | nan =>
      change parse? ['N', 'a', 'N'] = some .nan
      decide
  | infinite negative =>
      change parse? (signText negative ++ ['i', 'n', 'f']) = some (.infinite negative)
      cases negative <;> decide
  | finite negative units h =>
      obtain ⟨d, ⟨⟨c, rest, htext, hc⟩, d', hread, hsame⟩, hd⟩ := magnitudeText_denotes style h
      rw [write, htext, parse?_signText negative hc, ← htext, hread, Option.map_some,
        hsame, hd]

/-- A number written as data has a point or an exponent, also where it is whole. -/
theorem exists_mark_mem_magnitudeText (units : Nat) :
    ∃ c ∈ magnitudeText data units, c = '.' ∨ c = 'e' := by
  have hpositional : ∀ digits point, '.' ∈ positionalText true digits point := by
    intro digits point
    unfold positionalText
    split
    · exact List.mem_cons_of_mem _ List.mem_cons_self
    · split
      · exact List.mem_append_right _ List.mem_cons_self
      · exact List.mem_append_right _ List.mem_cons_self
  have hscientific : ∀ digits point, 'e' ∈ scientificText digits point := by
    intro digits point
    exact List.mem_append_left _ (List.mem_append_right _ List.mem_cons_self)
  unfold magnitudeText
  split
  · exact ⟨'.', hpositional _ _, .inl rfl⟩
  · dsimp only [data]
    split
    · exact ⟨'.', hpositional _ _, .inl rfl⟩
    · exact ⟨'e', hscientific _ _, .inr rfl⟩

theorem eq_minus_of_mem_signText {negative : Bool} {c : Char} (h : c ∈ signText negative) : c = '-' := by
  cases negative with
  | true => exact List.mem_singleton.mp h
  | false => cases h

theorem mem_positionalText {keepsPoint : Bool} {digits : List Char} {point : Int} {c : Char}
    (h : c ∈ positionalText keepsPoint digits point) : c ∈ digits ∨ c = '0' ∨ c = '.' := by
  unfold positionalText at h
  split at h
  · simp only [List.mem_cons, List.mem_append, List.mem_replicate] at h
    tauto
  · split at h
    · rcases List.mem_append.mp h with h | h
      · rcases List.mem_append.mp h with h | h
        · exact .inl h
        · exact .inr (.inl (List.eq_of_mem_replicate h))
      · cases keepsPoint with
        | true =>
            simp only [if_true, List.mem_cons, List.not_mem_nil, or_false] at h
            tauto
        | false => cases h
    · rcases List.mem_append.mp h with h | h
      · exact .inl (List.mem_of_mem_take h)
      · rcases List.mem_cons.mp h with rfl | h
        · exact .inr (.inr rfl)
        · exact .inl (List.mem_of_mem_drop h)

theorem mem_toDigits_of_mem_digitsAndPoint {d : Decimal} {c : Char} (h : c ∈ (digitsAndPoint d).1) :
    c ∈ Nat.toDigits 10 d.digits := by
  have hwritten := List.mem_reverse.mp h
  exact List.mem_reverse.mp ((List.dropWhile_sublist _).subset hwritten)

/-- Plain text of a magnitude has digits and points only. -/
theorem mem_magnitudeText_plain {units : Nat} {c : Char} (h : c ∈ magnitudeText plain units) :
    c.isDigit = true ∨ c = '.' := by
  have hpositional : ∀ {digits : List Char} {point : Int}, (∀ c ∈ digits, c.isDigit = true) →
      c ∈ positionalText false digits point → c.isDigit = true ∨ c = '.' := by
    intro digits point hdigits hc
    rcases mem_positionalText hc with hc | rfl | rfl
    · exact .inl (hdigits c hc)
    · exact .inl (by decide)
    · exact .inr rfl
  unfold magnitudeText at h
  split at h
  · exact hpositional (List.forall_mem_singleton.mpr (by decide)) h
  · exact hpositional (fun c hc => Text.isDigit_toDigits _ c (mem_toDigits_of_mem_digitsAndPoint hc)) h

end RowRecipe.Binary64
