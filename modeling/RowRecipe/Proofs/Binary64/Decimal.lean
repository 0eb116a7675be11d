import RowRecipe.Binary64.Decimal
import RowRecipe.Proofs.Binary64.Rounding

/-!
Decimals as quotients. Whatever way a decimal is read, it is rounded from the quotient that it denotes,
the plain answers for very large and very small exponents included. So it does not matter how many
zeros are written at the end of the digits.
-/

namespace RowRecipe.Binary64

theorem unitsPerOne_pos : 0 < unitsPerOne := by
  rw [unitsPerOne]
  exact Nat.two_pow_pos 1074

theorem limit_le {bits : Nat} (h : 53 + 2045 ≤ bits) : limit ≤ 2 ^ bits := by
  generalize hbound : 53 + 2045 = bound at h
  rw [limit, hbound]
  exact Nat.pow_le_pow_right (by decide) h

/-- A quotient above the range is rounded to infinity. -/
theorem round_of_le {num den : Nat} (negative : Bool) (bits : Nat) (hbits : 53 + 2045 ≤ bits)
    (hden : 0 < den) (h : 2 ^ bits * den ≤ num) : round negative num den = .infinite negative := by
  have hquotient : 2 ^ bits ≤ num / den := (Nat.le_div_iff_mul_le hden).mpr h
  have hne : num / den ≠ 0 := by
    have := Nat.two_pow_pos bits
    omega
  have hlog : bits ≤ (num / den).log2 := (Nat.le_log2 hne).mpr hquotient
  have hle : limit ≤ roundUnits num den :=
    Nat.le_trans (limit_le (Nat.le_trans hbits hlog)) (two_pow_log2_le_roundUnits hne)
  rw [round, dif_neg (Nat.not_lt.mpr hle)]

/-- A quotient below half the least magnitude is rounded to zero. -/
theorem round_of_lt {num den : Nat} (negative : Bool) (h : 2 * num < den) :
    round negative num den = zero negative := by
  have hwhole : num / den = 0 := Nat.div_eq_of_lt (by omega)
  have hunits : roundUnits num den = 0 := by
    have hspacing : spacing (num / den) = 0 := by
      rw [hwhole]
      decide
    have hrest : num % den = num := Nat.mod_eq_of_lt (by omega)
    rw [roundUnits, hspacing, Nat.pow_zero, Nat.mul_one, Nat.mul_one]
    simp only [roundHalfEven, hrest, if_pos h, hwhole]
  have hlt : roundUnits num den < limit := by
    rw [hunits]
    exact lt_limit_of_representable ⟨0, 0, by decide, by decide, rfl⟩
  rw [round, dif_pos hlt]
  simp only [hunits, zero]

theorem two_pow_mul_three_le (n : Nat) : 2 ^ (3 * n) ≤ 10 ^ n := by
  rw [Nat.pow_mul]
  exact Nat.pow_le_pow_left (by decide) n

/-- A decimal is rounded from its quotient. -/
theorem ofDecimal_eq_round (negative : Bool) (d : Decimal) :
    ofDecimal negative d = round negative (d.digits * 10 ^ d.exponent.toNat * unitsPerOne)
      (10 ^ (-d.exponent).toNat) := by
  have hpos : ∀ n, 0 < 10 ^ n := fun n => Nat.pow_pos (by decide)
  rcases Nat.eq_zero_or_pos d.digits with hzero | hdigits
  · rw [ofDecimal, if_pos hzero, hzero, Nat.zero_mul, Nat.zero_mul]
    exact (round_of_lt negative (by rw [Nat.mul_zero]; exact hpos _)).symm
  · rw [ofDecimal, if_neg (Nat.pos_iff_ne_zero.mp hdigits)]
    split
    · rename_i hlarge
      have hden : (-d.exponent).toNat = 0 := by omega
      have hbits := two_pow_mul_three_le d.exponent.toNat
      have hnum : 2 ^ (3 * d.exponent.toNat + 1074) ≤
          d.digits * 10 ^ d.exponent.toNat * unitsPerOne := by
        rw [unitsPerOne, Nat.pow_add 2 _ 1074]
        exact Nat.mul_le_mul_right _ (Nat.le_trans hbits (Nat.le_mul_of_pos_left _ hdigits))
      rw [hden, Nat.pow_zero]
      refine (round_of_le negative (3 * d.exponent.toNat + 1074) (by omega) Nat.one_pos ?_).symm
      rwa [Nat.mul_one]
    · split
      · rename_i hsmall
        have hnum : d.exponent.toNat = 0 := by omega
        have hlog : d.digits < 2 ^ (d.digits.log2 + 1) := Nat.lt_log2_self
        have hbits := two_pow_mul_three_le (-d.exponent).toNat
        have hexponent : 1 + (d.digits.log2 + 1) + 1074 ≤ 3 * (-d.exponent).toNat := by omega
        have hmul : d.digits * unitsPerOne < 2 ^ (d.digits.log2 + 1) * unitsPerOne :=
          Nat.mul_lt_mul_of_pos_right hlog unitsPerOne_pos
        have hpow := Nat.pow_le_pow_right (n := 2) (by decide) hexponent
        rw [Nat.pow_add 2 _ 1074, Nat.pow_add, Nat.pow_one, Nat.mul_assoc, ← unitsPerOne] at hpow
        rw [hnum, Nat.pow_zero, Nat.mul_one]
        refine (round_of_lt negative ?_).symm
        omega
      · split
        · rename_i hnonneg
          have hden : (-d.exponent).toNat = 0 := by omega
          rw [hden, Nat.pow_zero]
        · rename_i hnegative
          have hnum : d.exponent.toNat = 0 := by omega
          rw [hnum, Nat.pow_zero, Nat.mul_one]

/-- Zeros at the end of the digits count for the exponent. -/
theorem ofDecimal_mul_pow (negative : Bool) (digits zeros : Nat) (exponent : Int) :
    ofDecimal negative ⟨digits * 10 ^ zeros, exponent⟩ =
      ofDecimal negative ⟨digits, exponent + zeros⟩ := by
  rw [ofDecimal_eq_round, ofDecimal_eq_round]
  apply round_congr
  · exact Nat.pow_pos (by decide)
  · exact Nat.pow_pos (by decide)
  · have hexponents : zeros + exponent.toNat + (-(exponent + zeros)).toNat =
        (exponent + zeros).toNat + (-exponent).toNat := by omega
    have hpow : 10 ^ zeros * 10 ^ exponent.toNat * 10 ^ (-(exponent + zeros)).toNat =
        10 ^ (exponent + zeros).toNat * 10 ^ (-exponent).toNat := by
      rw [← Nat.pow_add, ← Nat.pow_add, ← Nat.pow_add, hexponents]
    calc digits * 10 ^ zeros * 10 ^ exponent.toNat * unitsPerOne *
          10 ^ (-(exponent + zeros)).toNat
        = digits * unitsPerOne *
          (10 ^ zeros * 10 ^ exponent.toNat * 10 ^ (-(exponent + zeros)).toNat) := by
          simp only [Nat.mul_comm, Nat.mul_assoc, Nat.mul_left_comm]
      _ = digits * unitsPerOne * (10 ^ (exponent + zeros).toNat * 10 ^ (-exponent).toNat) := by
          rw [hpow]
      _ = digits * 10 ^ (exponent + zeros).toNat * unitsPerOne * 10 ^ (-exponent).toNat := by
          simp only [Nat.mul_comm, Nat.mul_assoc, Nat.mul_left_comm]

end RowRecipe.Binary64
