import RowRecipe.Proofs.Binary64.Decimal

/-!
Equality of floating-point values. It is symmetric and transitive. Whole numbers that are rounded to
equal values need not be equal, but below 2^53 they are, since they are values of the format
themselves, and so are their products. Multiplying by one and dividing by it round nothing away.
-/

namespace RowRecipe.Binary64

variable {x y z : Binary64}

/-- The same infinity, or the same magnitude with the same sign unless it is zero. -/
inductive Equal : Binary64 → Binary64 → Prop
  | infinite (negative : Bool) : Equal (.infinite negative) (.infinite negative)
  | finite (negative : Bool) (units : Nat) (h : Representable units) :
      Equal (.finite negative units h) (.finite negative units h)
  | zero (negative negative' : Bool) (h : Representable 0) :
      Equal (.finite negative 0 h) (.finite negative' 0 h)

theorem equals_iff : x.equals y = true ↔ Equal x y := by
  constructor
  · intro h
    unfold equals at h
    split at h
    · rw [beq_iff_eq.mp h]
      exact .infinite _
    · rw [Bool.and_eq_true, Bool.or_eq_true, beq_iff_eq, beq_iff_eq, beq_iff_eq] at h
      obtain ⟨rfl, rfl | rfl⟩ := h
      · exact .finite _ _ _
      · exact .zero _ _ _
    · cases h
  · rintro (_ | _ | _) <;> simp [equals]

theorem equals_symm (h : x.equals y = true) : y.equals x = true := by
  rw [equals_iff] at h ⊢
  cases h with
  | infinite => exact .infinite _
  | finite => exact .finite _ _ _
  | zero => exact .zero _ _ _

theorem equals_trans (h : x.equals y = true) (h' : y.equals z = true) : x.equals z = true := by
  rw [equals_iff] at h h' ⊢
  cases h with
  | infinite => exact h'
  | finite => exact h'
  | zero =>
      cases h' with
      | finite => exact .zero _ _ _
      | zero => exact .zero _ _ _

/-- A number that is less than 2^53 in either direction. -/
inductive IsSmall : Binary64 → Prop
  | intro (negative : Bool) {units : Nat} (h : Representable units)
      (hlt : units < 2 ^ 53 * unitsPerOne) : IsSmall (.finite negative units h)

theorem representable_of_lt {n : Nat} (h : n < 2 ^ 53) : Representable (n * unitsPerOne) :=
  ⟨n, 1074, h, by decide, by rw [unitsPerOne]⟩

/-- Below 2^53 whole numbers are not rounded. -/
theorem ofInt_of_lt {i : Int} (h : i.natAbs < 2 ^ 53) :
    ofInt i = .finite (i < 0) (i.natAbs * unitsPerOne) (representable_of_lt h) :=
  round_of_representable _ _ Nat.one_pos (Nat.mul_one _).symm

theorem representable_one : Representable unitsPerOne := by
  simpa using representable_of_lt (by decide : 1 < 2 ^ 53)

theorem ofNat_one : ofNat 1 = .finite false unitsPerOne representable_one :=
  round_of_representable _ _ Nat.one_pos (Nat.mul_comm 1 unitsPerOne)

theorem ofNat_of_lt {n : Nat} (h : n < 2 ^ 53) :
    ofNat n = .finite false (n * unitsPerOne) (representable_of_lt h) :=
  round_of_representable _ _ Nat.one_pos (Nat.mul_one _).symm

/-- Below 2^53 whole numbers are multiplied exactly. -/
theorem ofNat_mul_ofNat {m n : Nat} (hm : m < 2 ^ 53) (hn : n < 2 ^ 53) (h : m * n < 2 ^ 53) :
    ofNat m * ofNat n = ofNat (m * n) := by
  change mul (ofNat m) (ofNat n) = _
  have hunits : m * unitsPerOne * (n * unitsPerOne) = m * n * unitsPerOne * unitsPerOne := by
    rw [Nat.mul_mul_mul_comm, Nat.mul_assoc (m * n)]
  rw [ofNat_of_lt hm, ofNat_of_lt hn, ofNat_of_lt h, mul, bne_self_eq_false]
  exact round_of_representable false _ unitsPerOne_pos hunits

theorem toUnsigned64_ofNat {n : Nat} (h : n < 2 ^ 53) : (ofNat n).toUnsigned64 = n := by
  rw [ofNat_of_lt h, toUnsigned64, if_neg Bool.false_ne_true, Nat.mul_div_cancel _ unitsPerOne_pos]
  omega

theorem mul_one (x : Binary64) : x * ofNat 1 = x := by
  change mul x (ofNat 1) = x
  rw [ofNat_one]
  cases x with
  | nan => rfl
  | infinite negative =>
      rw [mul, if_neg (Nat.ne_of_gt unitsPerOne_pos), Bool.bne_false]
  | finite negative units h =>
      rw [mul, Bool.bne_false]
      exact round_of_representable negative h unitsPerOne_pos rfl

theorem div_one (x : Binary64) : x / ofNat 1 = x := by
  change div x (ofNat 1) = x
  rw [ofNat_one]
  cases x with
  | nan => rfl
  | infinite negative => rw [div, Bool.bne_false]
  | finite negative units h =>
      rw [div, if_neg (Nat.ne_of_gt unitsPerOne_pos), Bool.bne_false]
      exact round_of_representable negative h unitsPerOne_pos rfl

theorem isSmall_ofInt {i : Int} (h : i.natAbs < 2 ^ 53) : (ofInt i).IsSmall := by
  rw [ofInt_of_lt h]
  exact .intro _ _ (Nat.mul_lt_mul_of_pos_right h unitsPerOne_pos)

/-- Larger ones are not rounded to less. -/
theorem not_isSmall_ofInt {i : Int} (h : 2 ^ 53 ≤ i.natAbs) : ¬(ofInt i).IsSmall := by
  have hpower : 2 ^ 53 * unitsPerOne = 2 ^ (53 + 1074) := by
    rw [unitsPerOne, Nat.pow_add 2 53 1074]
  have hle : 2 ^ (53 + 1074) ≤ i.natAbs * unitsPerOne / 1 := by
    rw [Nat.div_one, ← hpower]
    exact Nat.mul_le_mul_right unitsPerOne h
  have hne : i.natAbs * unitsPerOne / 1 ≠ 0 :=
    Nat.pos_iff_ne_zero.mp (Nat.lt_of_lt_of_le (Nat.two_pow_pos _) hle)
  have hlog : 53 + 1074 ≤ (i.natAbs * unitsPerOne / 1).log2 := (Nat.le_log2 hne).mpr hle
  have hpow := Nat.pow_le_pow_right (n := 2) (by decide) hlog
  have hunits := Nat.le_trans hpow (two_pow_log2_le_roundUnits hne)
  rw [ofInt, round]
  split
  · rintro ⟨_, _, hlt⟩
    exact Nat.not_lt.mpr hunits (hpower ▸ hlt)
  · intro hsmall
    cases hsmall

theorem isSmall_of_equals (h : x.equals y = true) (hy : y.IsSmall) : x.IsSmall := by
  rw [equals_iff] at h
  cases h with
  | infinite => exact hy
  | finite => exact hy
  | zero =>
      cases hy with
      | intro _ _ hlt => exact .intro _ _ hlt

/-- At most one whole number is rounded to a small value. -/
theorem ofInt_inj {i j : Int} (hsmall : x.IsSmall) (hi : (ofInt i).equals x = true)
    (hj : (ofInt j).equals x = true) : i = j := by
  have hlt : ∀ {k : Int}, (ofInt k).equals x = true → k.natAbs < 2 ^ 53 := by
    intro k hk
    by_contra hge
    have hk' : (ofInt k).IsSmall := isSmall_of_equals hk hsmall
    exact not_isSmall_ofInt (Nat.le_of_not_lt hge) hk'
  have hequals := equals_trans hi (equals_symm hj)
  rw [ofInt_of_lt (hlt hi), ofInt_of_lt (hlt hj), equals, Bool.and_eq_true, Bool.or_eq_true,
    beq_iff_eq, beq_iff_eq, beq_iff_eq, decide_eq_decide] at hequals
  obtain ⟨hunits, hsign⟩ := hequals
  have habs : i.natAbs = j.natAbs := Nat.eq_of_mul_eq_mul_right unitsPerOne_pos hunits
  rcases hsign with hsign | hzero
  · omega
  · have := (Nat.mul_eq_zero.mp hzero).resolve_right (Nat.pos_iff_ne_zero.mp unitsPerOne_pos)
    omega

end RowRecipe.Binary64
