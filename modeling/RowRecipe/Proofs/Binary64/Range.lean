import RowRecipe.Proofs.Binary64.Decimal

/-!
Which numbers are too large. A decimal is rounded to a finite value exactly if it is below the number
halfway from the greatest value of the format to the power of two that follows it; from there on
everything goes to infinity.
-/

namespace RowRecipe.Binary64

variable {num den : Nat}

/-- On a grid of the given step, a quotient of 53 bits stays one exactly if it is more than half a step
away from the first of 54 bits. -/
theorem roundHalfEven_lt_iff {step : Nat} (hstep : 0 < step) (hlt : num / step < 2 ^ 53) :
    roundHalfEven num step < 2 ^ 53 ↔ 2 * num < (2 ^ 54 - 1) * step := by
  have hparts := Nat.div_add_mod num step
  have hrest := Nat.mod_lt num hstep
  have hround := roundHalfEven_le num step
  rcases Nat.lt_or_ge (num / step) (2 ^ 53 - 1) with hbelow | habove
  · have hle : num / step ≤ 2 ^ 53 - 2 := by omega
    have hmul := Nat.mul_le_mul_left step hle
    have hlhs : roundHalfEven num step < 2 ^ 53 := by omega
    have hrhs : 2 * num < (2 ^ 54 - 1) * step := by omega
    exact iff_of_true hlhs hrhs
  · have hlast : num / step = 2 ^ 53 - 1 := Nat.le_antisymm (Nat.le_pred_of_lt hlt) habove
    have hodd : (2 ^ 53 - 1) % 2 = 1 := by decide
    rw [hlast] at hparts
    rw [roundHalfEven, hlast, hodd]
    generalize hnum : num % step = rest at hparts hrest ⊢
    by_cases hhalf : 2 * rest < step
    · rw [if_pos hhalf]
      refine iff_of_true (by decide) ?_
      omega
    · -- the quotient is odd, so a tie is rounded up as well
      have hend : ¬(2 ^ 53 - 1) + 1 < 2 ^ 53 := by decide
      rw [if_neg hhalf, ite_self]
      refine iff_of_false hend ?_
      omega

theorem two_mul_two_pow_le {a b : Nat} (h : a < b) : 2 * 2 ^ a ≤ 2 ^ b := by
  rw [← Nat.pow_succ']
  exact Nat.pow_le_pow_right (by decide) h

/-- Whatever the range, the last half of its last step is rounded to its end. -/
theorem roundUnits_lt_iff (hden : 0 < den) (bound : Nat) :
    roundUnits num den < 2 ^ (53 + bound) ↔ 2 * num < (2 ^ 54 - 1) * (den * 2 ^ bound) := by
  have hpos : 0 < den * 2 ^ spacing (num / den) := Nat.mul_pos hden (Nat.two_pow_pos _)
  have hsignificand := significand_lt num den
  rcases Nat.lt_trichotomy (spacing (num / den)) bound with hless | hequal | hmore
  · have hstep := Nat.mul_le_mul_left den (two_mul_two_pow_le hless)
    have hround : roundHalfEven num (den * 2 ^ spacing (num / den)) ≤ 2 ^ 53 :=
      Nat.le_trans (roundHalfEven_le _ _) hsignificand
    have hunits : roundUnits num den < 2 ^ (53 + bound) := by
      rw [Nat.pow_add]
      exact Nat.mul_lt_mul_of_le_of_lt hround (Nat.pow_lt_pow_right (by decide) hless) (by decide)
    have hnum := (Nat.div_lt_iff_lt_mul hpos).mp hsignificand
    refine iff_of_true hunits ?_
    rw [Nat.mul_left_comm] at hstep
    omega
  · have hiff := roundHalfEven_lt_iff hpos hsignificand
    rw [hequal] at hiff
    rw [roundUnits, hequal, Nat.pow_add, Nat.mul_lt_mul_right (Nat.two_pow_pos bound)]
    exact hiff
  · have hstep := Nat.mul_le_mul_left den (two_mul_two_pow_le hmore)
    have hunits : ¬roundUnits num den < 2 ^ (53 + bound) :=
      fun h => Nat.not_lt.mpr (spacing_le num den bound h) hmore
    have hle := le_significand num den (Nat.lt_of_le_of_lt (Nat.zero_le bound) hmore)
    have hnum := (Nat.le_div_iff_mul_le hpos).mp hle
    refine iff_of_false hunits ?_
    rw [Nat.mul_left_comm] at hstep
    omega

theorem isFinite_round (negative : Bool) : (round negative num den).isFinite = true ↔
    roundUnits num den < limit := by
  rw [round]
  split
  · rename_i h
    exact iff_of_true rfl h
  · rename_i h
    exact iff_of_false Bool.false_ne_true h

theorem two_pow_split {a b c : Nat} (h : c = a + (b + 1)) : 2 ^ c = 2 ^ a * (2 * 2 ^ b) := by
  rw [h, Nat.pow_add, Nat.pow_succ']

/-- Halfway from `(2 ^ 53 - 1) * 2 ^ 971`, the greatest value of the format, to `2 ^ 1024`. -/
def overflow : Nat := (2 ^ 54 - 1) * 2 ^ 970

/-- The decimal is less than that. -/
def InRange (d : Decimal) : Prop :=
  d.digits * 10 ^ d.exponent.toNat < overflow * 10 ^ (-d.exponent).toNat

instance (d : Decimal) : Decidable (InRange d) := inferInstanceAs (Decidable (_ < _))

/-- A decimal in range has a finite value, and no other. -/
theorem isFinite_ofDecimal (negative : Bool) (d : Decimal) :
    (ofDecimal negative d).isFinite = true ↔ InRange d := by
  have hden : 0 < 10 ^ (-d.exponent).toNat := Nat.pow_pos (by decide)
  rw [InRange, ofDecimal_eq_round, isFinite_round, limit, roundUnits_lt_iff hden 2045]
  generalize d.digits * 10 ^ d.exponent.toNat = num
  generalize 10 ^ (-d.exponent).toNat = den
  have hscale : 0 < 2 * unitsPerOne := Nat.mul_pos (by decide) unitsPerOne_pos
  have hbound : (2 ^ 54 - 1) * (den * 2 ^ 2045) = overflow * den * (2 * unitsPerOne) := by
    rw [two_pow_split (show 2045 = 970 + (1074 + 1) from rfl), ← unitsPerOne, overflow]
    generalize 2 ^ 970 = power
    rw [Nat.mul_left_comm den, ← Nat.mul_assoc, Nat.mul_assoc _ den]
  rw [hbound, Nat.mul_left_comm, Nat.mul_lt_mul_right hscale]

end RowRecipe.Binary64
