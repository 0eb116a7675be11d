import RowRecipe.Binary64.Shortest

/-!
Writing floating-point numbers. The digits are the shortest ones; a style settles the rest: where
positional notation ends, whether a whole number keeps a point, which of two equally short forms is
written, and how the values without digits are spelled. A number can also be written with a fixed
count of places.
-/

namespace RowRecipe.Binary64

/-- The decisions of a written form. -/
structure Style where
  tie : Tie
  /-- The exponents of the first digit that are written positionally; all of them if there is no
  range. -/
  positional : Option (Int × Int)
  /-- A whole number ends in `.0`. -/
  keepsPoint : Bool

/-- Plain text: never an exponent, no point after a whole number, a tie goes up. -/
def plain : Style := ⟨.up, none, false⟩

/-- Data: an exponent below 10^-5 and from 10^16 on, a point always, a tie goes to the even digit. -/
def data : Style := ⟨.toEven, some (-5, 15), true⟩

/-- The digits of a decimal without zeros at the end, and where its point stands: so many digits
after the start, which may be before the first or after the last one. -/
def digitsAndPoint (d : Decimal) : List Char × Int :=
  let written := Nat.toDigits 10 d.digits
  ((written.reverse.dropWhile (· == '0')).reverse, written.length + d.exponent)

/-- Digits with a point among them, zeros filling up where there are none. -/
def positionalText (keepsPoint : Bool) (digits : List Char) (point : Int) : List Char :=
  if point ≤ 0 then '0' :: '.' :: (List.replicate (-point).toNat '0' ++ digits)
  else if digits.length ≤ point then
    digits ++ List.replicate (point.toNat - digits.length) '0' ++
      (if keepsPoint then ['.', '0'] else [])
  else digits.take point.toNat ++ '.' :: digits.drop point.toNat

/-- One digit, the others after a point, and the exponent of the first with its sign. -/
def scientificText (digits : List Char) (point : Int) : List Char :=
  let exponent := point - 1
  let fraction := match digits.drop 1 with
    | [] => []
    | rest => '.' :: rest
  digits.take 1 ++ fraction ++
    ['e', if exponent < 0 then '-' else '+'] ++ Nat.toDigits 10 exponent.natAbs

/-- The digits of a magnitude in a style. -/
def magnitudeText (style : Style) (units : Nat) : List Char :=
  if units = 0 then positionalText style.keepsPoint ['0'] 1
  else
    let (digits, point) := digitsAndPoint (shortest style.tie units)
    match style.positional with
    | none => positionalText style.keepsPoint digits point
    | some (low, high) =>
        if low ≤ point - 1 && point - 1 ≤ high then positionalText style.keepsPoint digits point
        else scientificText digits point

def signText (negative : Bool) : List Char :=
  if negative then ['-'] else []

/-- A number written in a style. -/
def write (style : Style) : Binary64 → List Char
  | .nan => ['N', 'a', 'N']
  | .infinite negative => signText negative ++ ['i', 'n', 'f']
  | .finite negative units _ => signText negative ++ magnitudeText style units

/-- A number with a fixed count of decimal places: its exact value rounded, an exact tie going to the
even digit. -/
def writeFixed (places : Nat) : Binary64 → List Char
  | .nan => ['N', 'a', 'N']
  | .infinite negative => signText negative ++ ['i', 'n', 'f']
  | .finite negative units _ =>
      let digits := Nat.toDigits 10 (roundHalfEven (units * 10 ^ places) unitsPerOne)
      let padded := List.replicate (places + 1 - digits.length) '0' ++ digits
      let whole := padded.take (padded.length - places)
      let fraction := padded.drop (padded.length - places)
      signText negative ++ whole ++ (if places = 0 then [] else '.' :: fraction)

/-- The plain text of a number. -/
def toText (x : Binary64) : String :=
  String.ofList (write plain x)

end RowRecipe.Binary64
