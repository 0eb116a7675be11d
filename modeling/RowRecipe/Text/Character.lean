/-!
Characters, and the least of what texts write with them. White space is the Unicode property
White_Space, since core's `Char.isWhitespace` knows four ASCII characters only; literals, numbers, names
and settings are trimmed by the whole property. Units and booleans are matched without regard to case,
but for the letters of ASCII only, so that an accented or a full-width letter never matches. Digits are
the ten of ASCII, or those of every script (the Unicode general category Nd).

There are two ways to read a power `a ^ n` of numbers, which agree: as the power that comes with the
numbers, and as the power of a monoid. This project reads all powers the first way, so what is defined
with them does not depend on the algebra that is in scope.
-/

attribute [instance (high), default_instance 20000] instPowNat

namespace RowRecipe.Text

/-- The 25 characters with the Unicode property White_Space. -/
def isBlank (c : Char) : Bool :=
  let n := c.toNat
  (9 ≤ n && n ≤ 13) || n == 0x20 || n == 0x85 || n == 0xA0 || n == 0x1680 ||
    (0x2000 ≤ n && n ≤ 0x200A) || n == 0x2028 || n == 0x2029 || n == 0x202F || n == 0x205F ||
    n == 0x3000

def trimStart (cs : List Char) : List Char :=
  cs.dropWhile isBlank

def trimEnd (cs : List Char) : List Char :=
  (cs.reverse.dropWhile isBlank).reverse

def trim (cs : List Char) : List Char :=
  trimEnd (trimStart cs)

/-- The text without the white space at its two ends. -/
def trimmed (s : String) : String :=
  String.ofList (trim s.toList)

/-- Nothing but white space, or nothing at all. -/
def isBlankText (s : String) : Bool :=
  s.toList.all isBlank

/-- The texts agree once the ASCII letters of both are lower case. -/
def sameIgnoringCase (a b : List Char) : Bool :=
  a.map Char.toLower == b.map Char.toLower

/-- The zero digits of the scripts that have decimal digits, as of Unicode 16. Each is followed by
its nine successors. -/
def zeroDigits : List Nat :=
  [0x30, 0x660, 0x6F0, 0x7C0, 0x966, 0x9E6, 0xA66, 0xAE6, 0xB66, 0xBE6, 0xC66, 0xCE6, 0xD66, 0xDE6,
   0xE50, 0xED0, 0xF20, 0x1040, 0x1090, 0x17E0, 0x1810, 0x1946, 0x19D0, 0x1A80, 0x1A90, 0x1B50,
   0x1BB0, 0x1C40, 0x1C50, 0xA620, 0xA8D0, 0xA900, 0xA9D0, 0xA9F0, 0xAA50, 0xABF0, 0xFF10, 0x104A0,
   0x10D30, 0x10D40, 0x11066, 0x110F0, 0x11136, 0x111D0, 0x112F0, 0x11450, 0x114D0, 0x11650,
   0x116C0, 0x116D0, 0x116DA, 0x11730, 0x118E0, 0x11950, 0x11BF0, 0x11C50, 0x11D50, 0x11DA0,
   0x11F50, 0x16130, 0x16A60, 0x16AC0, 0x16B50, 0x16D70, 0x1CCF0, 0x1D7CE, 0x1D7D8, 0x1D7E2,
   0x1D7EC, 0x1D7F6, 0x1E140, 0x1E2F0, 0x1E4F0, 0x1E5F1, 0x1E950, 0x1FBF0]

/-- A decimal digit of any script. -/
def isDecimalDigit (c : Char) : Bool :=
  zeroDigits.any fun first => first ≤ c.toNat && c.toNat < first + 10

/-- The number that a run of ASCII digits writes; leading zeros do not count. -/
def digitsValue (cs : List Char) : Nat :=
  cs.foldl (fun n c => 10 * n + (c.toNat - '0'.toNat)) 0

/-- A whole number without a sign: one or more ASCII digits and nothing else. -/
def natural? (cs : List Char) : Option Nat :=
  if !cs.isEmpty && cs.all Char.isDigit then some (digitsValue cs) else none

/-- A whole number of 64 bits, with an optional sign. -/
def signed64? (cs : List Char) : Option Int :=
  let value : Option Int := match cs with
    | '-' :: rest => (natural? rest).map fun n => -(n : Int)
    | '+' :: rest => (natural? rest).map Int.ofNat
    | _ => (natural? cs).map Int.ofNat
  value.filter fun i => -(2 ^ 63) ≤ i && i < 2 ^ 63

/-- A whole number of 64 bits that is not negative; a plus sign may stand in front. -/
def unsigned64? (cs : List Char) : Option Nat :=
  let value := match cs with
    | '+' :: rest => natural? rest
    | _ => natural? cs
  value.filter fun n => n < 2 ^ 64

/-- The value of a hexadecimal digit, in either case. -/
def hexDigit? (c : Char) : Option Nat :=
  if c.isDigit then some (c.toNat - '0'.toNat)
  else if 'a' ≤ c && c ≤ 'f' then some (c.toNat - 'a'.toNat + 10)
  else if 'A' ≤ c && c ≤ 'F' then some (c.toNat - 'A'.toNat + 10)
  else none

end RowRecipe.Text
