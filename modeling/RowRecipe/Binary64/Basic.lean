import RowRecipe.Text.Character

/-!
Floating-point numbers of 64 bits as exact data. Every finite value of the format is a whole number
of units of 2^-1074, its least positive value, so a value is held as that natural number and every
operation is: compute exactly, then round to the nearest value of the format, an exact tie going to
the even neighbour. Nothing here runs on machine floats, so laws about the operations can be stated
and proved.
-/

namespace RowRecipe

namespace Binary64

/-- The units in the number one. -/
def unitsPerOne : Nat := 2 ^ 1074

/-- The least magnitude past the format's range, in which 53 bits are shifted by 2045 at most. -/
def limit : Nat := 2 ^ (53 + 2045)

/-- A magnitude of the format: at most 53 significant bits, and an exponent in range. -/
def Representable (units : Nat) : Prop :=
  ∃ significand shift : Nat, significand < 2 ^ 53 ∧ shift ≤ 2045 ∧ units = significand * 2 ^ shift

/-- The whole number nearest to `num / den`, the even one of two that are equally near. -/
def roundHalfEven (num den : Nat) : Nat :=
  let whole := num / den
  let rest := num % den
  if 2 * rest < den then whole
  else if den < 2 * rest then whole + 1
  else whole + whole % 2

/-- Values near `whole` are multiples of two to this power: what exceeds 53 bits is rounded away. -/
def spacing (whole : Nat) : Nat := whole.log2 - 52

/-- The magnitude nearest to `num / den` units, were the exponent unbounded. -/
def roundUnits (num den : Nat) : Nat :=
  let shift := spacing (num / den)
  roundHalfEven num (den * 2 ^ shift) * 2 ^ shift

theorem roundHalfEven_le (num den : Nat) : roundHalfEven num den ≤ num / den + 1 := by
  simp only [roundHalfEven]
  split
  · omega
  · split
    · omega
    · have := Nat.mod_lt (num / den) (show 2 > 0 by decide)
      omega

theorem le_roundHalfEven (num den : Nat) : num / den ≤ roundHalfEven num den := by
  simp only [roundHalfEven]
  split
  · omega
  · split <;> omega

theorem significand_lt (num den : Nat) :
    num / (den * 2 ^ spacing (num / den)) < 2 ^ 53 := by
  rw [← Nat.div_div_eq_div_mul, Nat.div_lt_iff_lt_mul (Nat.two_pow_pos _), ← Nat.pow_add]
  refine Nat.lt_of_lt_of_le (Nat.lt_log2_self (n := num / den)) ?_
  refine Nat.pow_le_pow_right (by decide) ?_
  unfold spacing
  omega

/-- A magnitude of more than 53 bits has a significand whose first bit is set. -/
theorem le_significand (num den : Nat) (h : 0 < spacing (num / den)) :
    2 ^ 52 ≤ num / (den * 2 ^ spacing (num / den)) := by
  have hlog : spacing (num / den) + 52 ≤ (num / den).log2 := by unfold spacing at h ⊢; omega
  have hne : num / den ≠ 0 := by
    intro hzero
    rw [hzero, Nat.log2_zero] at hlog
    omega
  rw [← Nat.div_div_eq_div_mul, Nat.le_div_iff_mul_le (Nat.two_pow_pos _), ← Nat.pow_add,
    Nat.add_comm]
  exact (Nat.le_log2 hne).1 hlog

theorem spacing_le (num den bound : Nat) (h : roundUnits num den < 2 ^ (53 + bound)) :
    spacing (num / den) ≤ bound := by
  rcases Nat.eq_zero_or_pos (spacing (num / den)) with hzero | hpos
  · omega
  · have hround := Nat.le_trans (le_significand num den hpos)
      (le_roundHalfEven num (den * 2 ^ spacing (num / den)))
    have hmul : 2 ^ 52 * 2 ^ spacing (num / den) ≤ roundUnits num den :=
      Nat.mul_le_mul_right _ hround
    rw [← Nat.pow_add] at hmul
    have hexponent := (Nat.pow_lt_pow_iff_right (by decide)).1 (Nat.lt_of_le_of_lt hmul h)
    omega

/-- What rounding gives below the limit is a magnitude of the format. -/
theorem representable_roundUnits (num den : Nat) (h : roundUnits num den < limit) :
    Representable (roundUnits num den) := by
  have hspacing : spacing (num / den) ≤ 2045 := by
    unfold limit at h
    exact spacing_le num den 2045 h
  have hle : roundHalfEven num (den * 2 ^ spacing (num / den)) ≤ 2 ^ 53 :=
    Nat.le_trans (roundHalfEven_le _ _) (significand_lt num den)
  rcases Nat.lt_or_ge (roundHalfEven num (den * 2 ^ spacing (num / den))) (2 ^ 53) with hlt | hge
  · exact ⟨_, _, hlt, hspacing, rfl⟩
  · have heq : roundHalfEven num (den * 2 ^ spacing (num / den)) = 2 ^ 53 := Nat.le_antisymm hle hge
    have hunits : roundUnits num den = 2 ^ (53 + spacing (num / den)) := by
      show roundHalfEven num (den * 2 ^ spacing (num / den)) * 2 ^ spacing (num / den) = _
      rw [heq, ← Nat.pow_add]
    refine ⟨2 ^ 52, spacing (num / den) + 1, Nat.pow_lt_pow_right (by decide) (by decide), ?_, ?_⟩
    · rw [hunits] at h
      have := (Nat.pow_lt_pow_iff_right (a := 2) (by decide)).1 h
      omega
    · rw [hunits, ← Nat.pow_add]
      congr 1
      omega

end Binary64

/-- A floating-point number of 64 bits. The two zeros differ; all invalid results are one value. -/
inductive Binary64 where
  | nan
  | infinite (negative : Bool)
  | finite (negative : Bool) (units : Nat) (representable : Binary64.Representable units)
deriving DecidableEq

namespace Binary64

/-- The value nearest to `num / den` units, infinite when that lies past the range. -/
def round (negative : Bool) (num den : Nat) : Binary64 :=
  if h : roundUnits num den < limit then
    .finite negative (roundUnits num den) (representable_roundUnits num den h)
  else
    .infinite negative

def zero (negative : Bool) : Binary64 :=
  .finite negative 0 ⟨0, 0, by decide, by decide, rfl⟩

def ofNat (n : Nat) : Binary64 :=
  round false (n * unitsPerOne) 1

def ofInt (i : Int) : Binary64 :=
  round (i < 0) (i.natAbs * unitsPerOne) 1

def isFinite : Binary64 → Bool
  | .finite .. => true
  | _ => false

/-- The value with the same magnitude and the given sign. -/
def withSign (negative : Bool) : Binary64 → Binary64
  | .nan => .nan
  | .infinite _ => .infinite negative
  | .finite _ units h => .finite negative units h

def mul : Binary64 → Binary64 → Binary64
  | .nan, _ | _, .nan => .nan
  | .infinite a, .infinite b => .infinite (a != b)
  | .infinite a, .finite b units _ => if units = 0 then .nan else .infinite (a != b)
  | .finite a units _, .infinite b => if units = 0 then .nan else .infinite (a != b)
  | .finite a m _, .finite b n _ => round (a != b) (m * n) unitsPerOne

def div : Binary64 → Binary64 → Binary64
  | .nan, _ | _, .nan => .nan
  | .infinite _, .infinite _ => .nan
  | .infinite a, .finite b _ _ => .infinite (a != b)
  | .finite a _ _, .infinite b => zero (a != b)
  | .finite a m _, .finite b n _ =>
      if n = 0 then (if m = 0 then .nan else .infinite (a != b))
      else round (a != b) (m * unitsPerOne) n

instance : Mul Binary64 := ⟨mul⟩
instance : Div Binary64 := ⟨div⟩

/-- Equality of numbers: the two zeros are equal, and an invalid result equals nothing. -/
def equals : Binary64 → Binary64 → Bool
  | .infinite a, .infinite b => a == b
  | .finite a m _, .finite b n _ => m == n && (a == b || m == 0)
  | _, _ => false

/-- The whole number of 64 bits left after dropping the fraction; what lies outside the range goes
to the nearer end of it, and an invalid result to zero. -/
def toUnsigned64 : Binary64 → Nat
  | .nan => 0
  | .infinite negative => if negative then 0 else 2 ^ 64 - 1
  | .finite negative units _ => if negative then 0 else min (units / unitsPerOne) (2 ^ 64 - 1)

end Binary64

end RowRecipe
