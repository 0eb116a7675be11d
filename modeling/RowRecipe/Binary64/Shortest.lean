import RowRecipe.Binary64.Decimal

/-!
The shortest decimal that reads back to a floating-point value. On each grid of decimals, from the
coarsest to finer ones, the value has two neighbours; the first grid on which one of them reads back
gives the digits, and of two that do the nearer is taken.
-/

namespace RowRecipe.Binary64

/-- Which of two equally near decimals is written. -/
inductive Tie where
  | up
  | toEven
deriving DecidableEq

/-- The power of ten of the first digit of a positive magnitude: 10^400 lifts the least one well
above one, where digits can be counted. -/
def leadingExponent (units : Nat) : Int :=
  (Nat.toDigits 10 (units * 10 ^ 400 / unitsPerOne)).length - 401

/-- A magnitude measured in steps of a power of ten, as a quotient of whole numbers. -/
def inSteps (units : Nat) (exponent : Int) : Nat × Nat :=
  if 0 ≤ exponent then (units, unitsPerOne * 10 ^ exponent.toNat)
  else (units * 10 ^ (-exponent).toNat, unitsPerOne)

/-- The decimal reads as the magnitude. -/
def readsAs (d : Decimal) (units : Nat) : Bool :=
  match ofDecimal false d with
  | .finite _ n _ => n == units
  | _ => false

/-- The neighbour of a magnitude on the grid of a power of ten that reads back to it, the nearer
one if both do. -/
def onGrid (tie : Tie) (units : Nat) (exponent : Int) : Option Decimal :=
  let (num, den) := inSteps units exponent
  let below := num / den
  let rest := num % den
  match readsAs ⟨below, exponent⟩ units, readsAs ⟨below + 1, exponent⟩ units with
  | true, true =>
      let up := if 2 * rest = den then tie = .up || below % 2 = 1 else den < 2 * rest
      some ⟨if up then below + 1 else below, exponent⟩
  | true, false => some ⟨below, exponent⟩
  | false, true => some ⟨below + 1, exponent⟩
  | false, false => none

/-- The decimal with the fewest digits that reads back to a positive magnitude. Seventeen digits are
always enough; past them stands the exact value, so that the result reads back in any case. -/
def shortest (tie : Tie) (units : Nat) : Decimal :=
  let leading := leadingExponent units
  ((List.range 17).findSome? fun (i : Nat) => onGrid tie units (leading - i)).getD
    ⟨units * 5 ^ 1074, -1074⟩

end RowRecipe.Binary64
