import RowRecipe.Binary64.Basic
import RowRecipe.Text.Character

/-!
Reading decimal numbers. A decimal is a whole number of digits and a power of ten; reading it gives
the nearest floating-point value, whatever the number of digits.
-/

namespace RowRecipe

/-- The number `digits * 10 ^ exponent`. -/
structure Decimal where
  digits : Nat
  exponent : Int
deriving DecidableEq

namespace Binary64

/-- The value nearest to a decimal. Exponents so large or so small that the answer is plain are
answered at once, so that no power of ten outgrows the format. -/
def ofDecimal (negative : Bool) (d : Decimal) : Binary64 :=
  if d.digits = 0 then zero negative
  else if 400 < d.exponent then .infinite negative
  else if d.exponent < -(400 + d.digits.log2) then zero negative
  else if 0 ≤ d.exponent then
    round negative (d.digits * 10 ^ d.exponent.toNat * unitsPerOne) 1
  else
    round negative (d.digits * unitsPerOne) (10 ^ (-d.exponent).toNat)

/-- A sign in front of a number: whether it is a minus sign, and what follows. -/
def takeSign : List Char → Bool × List Char
  | '-' :: rest => (true, rest)
  | '+' :: rest => (false, rest)
  | rest => (false, rest)

/-- A fraction: the digits after a point, if there is a point. -/
def takeFraction : List Char → List Char × List Char
  | '.' :: rest => (rest.takeWhile Char.isDigit, rest.dropWhile Char.isDigit)
  | rest => ([], rest)

/-- An exponent: nothing, or `e` in either case, an optional sign and digits to the end. -/
def exponent? : List Char → Option Int
  | [] => some 0
  | c :: rest =>
      if c = 'e' || c = 'E' then
        let (negative, digits) := takeSign rest
        (Text.natural? digits).map fun n => if negative then -(n : Int) else n
      else none

/-- A number without its sign: digits on at least one side of an optional point, and an optional
exponent. -/
def unsignedDecimal? (cs : List Char) : Option Decimal :=
  let whole := cs.takeWhile Char.isDigit
  let (fraction, rest) := takeFraction (cs.dropWhile Char.isDigit)
  if whole.isEmpty && fraction.isEmpty then none
  else (exponent? rest).map fun e => ⟨Text.digitsValue (whole ++ fraction), e - fraction.length⟩

/-- Reads a floating-point number from the whole of a text. A sign may stand in front of anything;
the names of infinity and of an invalid result count in any ASCII case. -/
def parse? (cs : List Char) : Option Binary64 :=
  let (negative, rest) := takeSign cs
  if Text.sameIgnoringCase rest ['i', 'n', 'f'] ||
      Text.sameIgnoringCase rest ['i', 'n', 'f', 'i', 'n', 'i', 't', 'y'] then
    some (.infinite negative)
  else if Text.sameIgnoringCase rest ['n', 'a', 'n'] then some .nan
  else (unsignedDecimal? rest).map (ofDecimal negative)

end Binary64

end RowRecipe
