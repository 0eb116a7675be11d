import RowRecipe.Proofs.Binary64.Decimal
import RowRecipe.Proofs.Binary64.Reading

/-!
Whole numbers as texts. A text of digits, with or without a sign in front, is read as a whole number
of 64 bits where it writes one, and in any case as the floating-point value nearest to what it writes.
-/

namespace RowRecipe.Text

variable {cs digits : List Char}

/-- A text with a character other than a digit is no whole number. -/
theorem natural?_eq_none {c : Char} (hc : c ∈ cs) (hdigit : c.isDigit = false) :
    natural? cs = none := by
  cases hvalue : natural? cs with
  | none => rfl
  | some n =>
      have hall := (natural?_eq_some hvalue).2.1 c hc
      rw [hdigit] at hall
      cases hall

theorem ne_of_natural? {n : Nat} (h : natural? digits = some n) {c : Char}
    (hc : c.isDigit = false) (rest : List Char) : digits ≠ c :: rest := by
  rintro rfl
  have hdigit := (natural?_eq_some h).2.1 c List.mem_cons_self
  rw [hc] at hdigit
  cases hdigit

theorem signed64?_minus (digits : List Char) :
    signed64? ('-' :: digits) = ((natural? digits).map fun n : Nat => -(n : Int)).filter
      fun i => -(2 ^ 63) ≤ i && i < 2 ^ 63 := by
  cases hvalue : natural? digits with
  | none => rw [signed64?, hvalue]; rfl
  | some n => rw [signed64?, hvalue]; rfl

theorem signed64?_plus (digits : List Char) :
    signed64? ('+' :: digits) = ((natural? digits).map Int.ofNat).filter
      fun i => -(2 ^ 63) ≤ i && i < 2 ^ 63 := rfl

theorem signed64?_of_natural? {n : Nat} (h : natural? digits = some n) :
    signed64? digits = ((natural? digits).map Int.ofNat).filter
      fun i => -(2 ^ 63) ≤ i && i < 2 ^ 63 := by
  unfold signed64?
  split
  · exact (ne_of_natural? h (by decide) _ rfl).elim
  · exact (ne_of_natural? h (by decide) _ rfl).elim
  · rfl

/-- A text with a character other than digits and signs writes no whole number. -/
theorem signed64?_eq_none {c : Char} (hc : c ∈ cs) (hdigit : c.isDigit = false) (hminus : c ≠ '-')
    (hplus : c ≠ '+') : signed64? cs = none := by
  unfold signed64?
  split
  · rw [natural?_eq_none (List.mem_of_ne_of_mem hminus hc) hdigit]
    rfl
  · rw [natural?_eq_none (List.mem_of_ne_of_mem hplus hc) hdigit]
    rfl
  · rw [natural?_eq_none hc hdigit]
    rfl

/-- A whole number with a sign is written with digits, and perhaps a sign. -/
theorem exists_digits_of_signed64? {i : Int} (h : signed64? cs = some i) :
    i < 2 ^ 63 ∧ ∃ digits, ∃ n : Nat, natural? digits = some n ∧
      (cs = '-' :: digits ∧ i = -(n : Int) ∨ (cs = digits ∨ cs = '+' :: digits) ∧ i = n) := by
  unfold signed64? at h
  obtain ⟨hvalue, hrange⟩ := Option.filter_eq_some_iff.mp h
  have hlt : i < 2 ^ 63 := by
    rw [Bool.and_eq_true, decide_eq_true_eq, decide_eq_true_eq] at hrange
    exact hrange.2
  refine ⟨hlt, ?_⟩
  split at hvalue
  · rename_i rest
    cases hn : natural? rest with
    | none =>
        rw [hn] at hvalue
        cases hvalue
    | some n =>
        rw [hn] at hvalue
        exact ⟨rest, n, hn, .inl ⟨rfl, (Option.some.inj hvalue).symm⟩⟩
  · rename_i rest
    obtain ⟨n, hn, rfl⟩ := Option.map_eq_some_iff.mp hvalue
    exact ⟨rest, n, hn, .inr ⟨.inr rfl, rfl⟩⟩
  · obtain ⟨n, hn, rfl⟩ := Option.map_eq_some_iff.mp hvalue
    exact ⟨cs, n, hn, .inr ⟨.inl rfl, rfl⟩⟩

theorem unsigned64?_of_natural? {n : Nat} (h : natural? digits = some n) :
    unsigned64? digits = (natural? digits).filter fun n => n < 2 ^ 64 := by
  unfold unsigned64?
  split
  · exact (ne_of_natural? h (by decide) _ rfl).elim
  · rfl

theorem unsigned64?_eq_none {c : Char} (hc : c ∈ cs) (hdigit : c.isDigit = false)
    (hplus : c ≠ '+') : unsigned64? cs = none := by
  unfold unsigned64?
  split
  · rw [natural?_eq_none (List.mem_of_ne_of_mem hplus hc) hdigit]
    rfl
  · rw [natural?_eq_none hc hdigit]
    rfl

/-- A whole number without a sign is written with digits, and perhaps a plus sign. -/
theorem exists_digits_of_unsigned64? {k : Nat} (h : unsigned64? cs = some k) :
    k < 2 ^ 64 ∧ ∃ digits, natural? digits = some k ∧ (cs = digits ∨ cs = '+' :: digits) := by
  unfold unsigned64? at h
  split at h
  · rename_i rest
    obtain ⟨hvalue, hlt⟩ := Option.filter_eq_some_iff.mp h
    exact ⟨by simpa using hlt, rest, hvalue, .inr rfl⟩
  · obtain ⟨hvalue, hlt⟩ := Option.filter_eq_some_iff.mp h
    exact ⟨by simpa using hlt, cs, hvalue, .inl rfl⟩

theorem unsigned64?_of_digits {k : Nat} (h : natural? digits = some k) (hk : k < 2 ^ 64)
    (htext : cs = digits ∨ cs = '+' :: digits) : unsigned64? cs = some k := by
  rcases htext with rfl | rfl
  · rw [unsigned64?_of_natural? h, h, Option.filter_some, if_pos (by simpa using hk)]
  · rw [unsigned64?, h, Option.filter_some, if_pos (by simpa using hk)]

/-- It is read as one with a sign too, if it is in the range of these. -/
theorem signed64?_of_unsigned64? {k : Nat} (h : unsigned64? cs = some k) :
    signed64? cs = if k < 2 ^ 63 then some (k : Int) else none := by
  have hfilter : (some (Int.ofNat k)).filter (fun i => -(2 ^ 63) ≤ i && i < 2 ^ 63) =
      if k < 2 ^ 63 then some (k : Int) else none := by
    rw [Option.filter_some]
    refine if_congr ?_ rfl rfl
    rw [Bool.and_eq_true, decide_eq_true_eq, decide_eq_true_eq, Int.ofNat_eq_natCast]
    omega
  obtain ⟨-, digits, hvalue, rfl | rfl⟩ := exists_digits_of_unsigned64? h
  · rw [signed64?_of_natural? hvalue, hvalue]
    exact hfilter
  · rw [signed64?_plus, hvalue]
    exact hfilter

theorem ofDecimal_natural (negative : Bool) (n : Nat) :
    Binary64.ofDecimal negative ⟨n, 0⟩ =
      Binary64.round negative (n * Binary64.unitsPerOne) 1 := by
  rw [Binary64.ofDecimal_eq_round, Int.toNat_zero, Nat.pow_zero, Nat.mul_one]
  rfl

theorem parse?_sign_natural (negative : Bool) {n : Nat} (h : natural? digits = some n) :
    Binary64.parse? (Binary64.signText negative ++ digits) =
      some (Binary64.round negative (n * Binary64.unitsPerOne) 1) := by
  obtain ⟨hne, hdigits, hvalue⟩ := natural?_eq_some h
  obtain ⟨c, rest, rfl⟩ := List.exists_cons_of_ne_nil hne
  rw [Binary64.parse?_signText negative (hdigits c List.mem_cons_self),
    Binary64.unsignedDecimal?_digits hne hdigits, Option.map_some, hvalue, ofDecimal_natural]

theorem parse?_of_unsigned64? {k : Nat} (h : unsigned64? cs = some k) :
    Binary64.parse? cs = some (Binary64.ofInt k) := by
  have hround : Binary64.round false (k * Binary64.unitsPerOne) 1 = Binary64.ofInt k := by
    have hnonneg : decide ((k : Int) < 0) = false := decide_eq_false (by omega)
    rw [Binary64.ofInt, hnonneg, Int.natAbs_natCast]
  obtain ⟨-, digits, hvalue, rfl | rfl⟩ := exists_digits_of_unsigned64? h
  · exact (parse?_sign_natural false hvalue).trans (congrArg some hround)
  · -- a plus sign is taken like no sign at all
    have hread := parse?_sign_natural false hvalue
    obtain ⟨c, rest, rfl⟩ := List.exists_cons_of_ne_nil (natural?_eq_some hvalue).1
    have hc := (natural?_eq_some hvalue).2.1 c List.mem_cons_self
    have hsign := Binary64.takeSign_signText false hc rest
    rw [hround] at hread
    rw [← hread, Binary64.parse?, Binary64.parse?, hsign]
    rfl

end RowRecipe.Text
