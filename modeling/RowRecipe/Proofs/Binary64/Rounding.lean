import Mathlib.Data.Nat.Basic
import RowRecipe.Binary64.Basic

/-!
What rounding does to magnitudes. It only depends on the number that a quotient denotes, it keeps the
magnitudes of the format, and it moves any other one by less than its own size.
-/

namespace RowRecipe

namespace Binary64

variable {num den : Nat}

theorem two_pow_spacing_le (whole : Nat) : 2 ^ spacing whole ≤ whole + 1 := by
  rcases Nat.eq_zero_or_pos (spacing whole) with hzero | hpos
  · rw [hzero]
    exact Nat.le_add_left 1 _
  · have hne : whole ≠ 0 := by
      rintro rfl
      exact absurd hpos (by decide)
    have hpow : 2 ^ spacing whole ≤ 2 ^ whole.log2 :=
      Nat.pow_le_pow_right (by decide) (Nat.sub_le _ _)
    have hlog := (Nat.le_log2 hne).mp (Nat.le_refl _)
    omega

theorem roundUnits_le (num den : Nat) : roundUnits num den ≤ 2 * (num / den) + 1 := by
  have hle := roundHalfEven_le num (den * 2 ^ spacing (num / den))
  rw [← Nat.div_div_eq_div_mul] at hle
  have hmul := Nat.mul_le_mul_right (2 ^ spacing (num / den)) hle
  have hdiv := Nat.div_mul_le_self (num / den) (2 ^ spacing (num / den))
  have hspacing := two_pow_spacing_le (num / den)
  rw [Nat.add_mul, Nat.one_mul] at hmul
  exact Nat.le_trans hmul (by omega)

/-- The first bit of a magnitude is never rounded away. -/
theorem two_pow_log2_le_roundUnits (h : num / den ≠ 0) :
    2 ^ (num / den).log2 ≤ roundUnits num den := by
  rcases Nat.eq_zero_or_pos (spacing (num / den)) with hzero | hpos
  · have hlog := (Nat.le_log2 h).mp (Nat.le_refl _)
    rw [roundUnits, hzero, Nat.pow_zero, Nat.mul_one, Nat.mul_one]
    exact Nat.le_trans hlog (le_roundHalfEven num den)
  · have hlog : (num / den).log2 = 52 + spacing (num / den) := by
      unfold spacing at hpos ⊢
      omega
    have hround := Nat.le_trans (le_significand num den hpos)
      (le_roundHalfEven num (den * 2 ^ spacing (num / den)))
    rw [hlog, Nat.pow_add]
    exact Nat.mul_le_mul_right _ hround

/-- Whole numbers of 64 bits are in range. -/
theorem isFinite_ofInt {i : Int} (h : i.natAbs < 2 ^ 64) : (ofInt i).isFinite = true := by
  have hlt : roundUnits (i.natAbs * unitsPerOne) 1 < limit := by
    have hle := roundUnits_le (i.natAbs * unitsPerOne) 1
    rw [Nat.div_one] at hle
    have hmul : i.natAbs * unitsPerOne ≤ (2 ^ 64 - 1) * unitsPerOne :=
      Nat.mul_le_mul_right unitsPerOne (by omega)
    have hlimit : 2 * ((2 ^ 64 - 1) * unitsPerOne) + 1 < limit := by decide +kernel
    omega
  rw [ofInt, round, dif_pos hlt]
  rfl

theorem roundHalfEven_mul_right (num den : Nat) {k : Nat} (hk : 0 < k) :
    roundHalfEven (num * k) (den * k) = roundHalfEven num den := by
  have hlt : 2 * (num % den * k) < den * k ↔ 2 * (num % den) < den := by
    rw [← Nat.mul_assoc]
    exact Nat.mul_lt_mul_right hk
  have hgt : den * k < 2 * (num % den * k) ↔ den < 2 * (num % den) := by
    rw [← Nat.mul_assoc]
    exact Nat.mul_lt_mul_right hk
  simp only [roundHalfEven, Nat.mul_div_mul_right num den hk, Nat.mul_mod_mul_right, hlt, hgt]

theorem roundUnits_mul_right (num den : Nat) {k : Nat} (hk : 0 < k) :
    roundUnits (num * k) (den * k) = roundUnits num den := by
  simp only [roundUnits, Nat.mul_div_mul_right num den hk]
  rw [Nat.mul_right_comm, roundHalfEven_mul_right _ _ hk]

/-- Equal quotients are rounded to the same value. -/
theorem round_congr (negative : Bool) {num' den' : Nat} (hden : 0 < den) (hden' : 0 < den')
    (h : num * den' = num' * den) : round negative num den = round negative num' den' := by
  have hunits : roundUnits num den = roundUnits num' den' := by
    rw [← roundUnits_mul_right num den hden', ← roundUnits_mul_right num' den' hden, h,
      Nat.mul_comm den]
  simp only [round, hunits]

theorem shifted_lt {significand shift : Nat} (bits bound : Nat) (hsignificand : significand < 2 ^ bits)
    (hshift : shift ≤ bound) : significand * 2 ^ shift < 2 ^ (bits + bound) := by
  rw [Nat.pow_add]
  exact Nat.mul_lt_mul_of_lt_of_le hsignificand (Nat.pow_le_pow_right (by decide) hshift)
    (Nat.two_pow_pos _)

theorem lt_limit_of_representable {units : Nat} (h : Representable units) : units < limit := by
  obtain ⟨significand, shift, hsignificand, hshift, rfl⟩ := h
  unfold limit
  exact shifted_lt 53 2045 hsignificand hshift

/-- A magnitude of the format is on the grid that it is rounded to. -/
theorem two_pow_spacing_dvd {units : Nat} (h : Representable units) : 2 ^ spacing units ∣ units := by
  obtain ⟨significand, shift, hsignificand, -, rfl⟩ := h
  rcases Nat.eq_zero_or_pos significand with rfl | hpos
  · rw [Nat.zero_mul]
    exact Nat.dvd_zero _
  · have hne : significand * 2 ^ shift ≠ 0 := by
      have := Nat.mul_pos hpos (Nat.two_pow_pos shift)
      omega
    have hlog : (significand * 2 ^ shift).log2 < 53 + shift := by
      rw [Nat.log2_lt hne, Nat.pow_add]
      exact Nat.mul_lt_mul_of_pos_right hsignificand (Nat.two_pow_pos _)
    have hle : spacing (significand * 2 ^ shift) ≤ shift := by
      unfold spacing
      omega
    exact Nat.dvd_mul_left_of_dvd (Nat.pow_dvd_pow 2 hle) significand

theorem roundUnits_of_representable {units : Nat} (h : Representable units) :
    roundUnits units 1 = units := by
  have hpos := Nat.two_pow_pos (spacing units)
  have hrest : units % 2 ^ spacing units = 0 := Nat.mod_eq_zero_of_dvd (two_pow_spacing_dvd h)
  simp only [roundUnits, Nat.div_one, Nat.one_mul, roundHalfEven, hrest, Nat.mul_zero, if_pos hpos]
  exact Nat.div_mul_cancel (two_pow_spacing_dvd h)

/-- A value of the format is not rounded away from itself, whichever quotient it is given as. -/
theorem round_of_representable (negative : Bool) {units : Nat} (h : Representable units)
    (hden : 0 < den) (hnum : num = units * den) : round negative num den = .finite negative units h := by
  have hunits : roundUnits num den = units := by
    have hscaled := roundUnits_mul_right units 1 hden
    rw [Nat.one_mul, ← hnum] at hscaled
    rw [hscaled, roundUnits_of_representable h]
  have hlt : roundUnits num den < limit := by
    rw [hunits]
    exact lt_limit_of_representable h
  rw [round, dif_pos hlt]
  simp only [hunits]

end Binary64

end RowRecipe
