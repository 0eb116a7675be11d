import RowRecipe.Binary64.Shortest
import RowRecipe.Proofs.Binary64.Decimal

/-!
The decimal that a value is written with reads back to the value. A decimal found on a grid is taken
only if it does, and the exact decimal, which stands in if none was found, does as well.
-/

namespace RowRecipe.Binary64

variable {units : Nat}

theorem readsAs_eq_true {d : Decimal} (h : readsAs d units = true) :
    ∃ b hunits, ofDecimal false d = .finite b units hunits := by
  unfold readsAs at h
  split at h
  · rename_i b n hunits hread
    obtain rfl := beq_iff_eq.mp h
    exact ⟨b, hunits, hread⟩
  · cases h

/-- A quotient is rounded to the same magnitude with either sign. -/
theorem round_sign {num den : Nat} {b : Bool} {hunits : Representable units}
    (h : round false num den = .finite b units hunits) (negative : Bool) :
    round negative num den = .finite negative units hunits := by
  unfold round at h ⊢
  by_cases hlt : roundUnits num den < limit
  · rw [dif_pos hlt] at h ⊢
    obtain ⟨-, rfl⟩ := Binary64.finite.inj h
    rfl
  · rw [dif_neg hlt] at h
    cases h

/-- A decimal that reads as a magnitude does so with either sign. -/
theorem ofDecimal_of_readsAs {d : Decimal} (hreads : readsAs d units = true)
    (h : Representable units) (negative : Bool) :
    ofDecimal negative d = .finite negative units h := by
  obtain ⟨b, hunits, hread⟩ := readsAs_eq_true hreads
  rw [ofDecimal_eq_round] at hread ⊢
  exact round_sign hread negative

theorem readsAs_of_onGrid {tie : Tie} {exponent : Int} {d : Decimal}
    (h : onGrid tie units exponent = some d) : readsAs d units = true := by
  simp only [onGrid] at h
  split at h
  · rename_i hbelow habove
    have hboth : ∀ up : Bool, readsAs ⟨if up then (inSteps units exponent).1 /
        (inSteps units exponent).2 + 1 else (inSteps units exponent).1 /
        (inSteps units exponent).2, exponent⟩ units = true := by
      intro up
      cases up
      · exact hbelow
      · exact habove
    obtain rfl := Option.some.inj h
    exact hboth _
  · rename_i hbelow _
    obtain rfl := Option.some.inj h
    exact hbelow
  · rename_i _ habove
    obtain rfl := Option.some.inj h
    exact habove
  · cases h

/-- A magnitude written out in units is itself. -/
theorem readsAs_exact (h : Representable units) : readsAs ⟨units * 5 ^ 1074, -1074⟩ units = true := by
  have hround : ofDecimal false ⟨units * 5 ^ 1074, -1074⟩ = .finite false units h := by
    rw [ofDecimal_eq_round]
    refine round_of_representable false h (Nat.pow_pos (by decide)) ?_
    have hpow : 5 ^ 1074 * unitsPerOne = 10 ^ 1074 := by
      generalize hplaces : 1074 = places
      rw [unitsPerOne, hplaces, ← Nat.mul_pow]
    have hnum : (-1074 : Int).toNat = 0 := rfl
    have hden : (-(-1074) : Int).toNat = 1074 := rfl
    rw [hnum, hden, Nat.pow_zero, Nat.mul_one, Nat.mul_assoc, hpow]
  rw [readsAs, hround]
  exact beq_self_eq_true units

theorem readsAs_shortest (tie : Tie) (h : Representable units) :
    readsAs (shortest tie units) units = true := by
  rw [shortest]
  cases hfound : (List.range 17).findSome? fun (i : Nat) =>
      onGrid tie units (leadingExponent units - i) with
  | none => exact readsAs_exact h
  | some d =>
      obtain ⟨i, -, hgrid⟩ := List.exists_of_findSome?_eq_some hfound
      exact readsAs_of_onGrid hgrid

end RowRecipe.Binary64
