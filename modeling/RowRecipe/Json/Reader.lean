import RowRecipe.Binary64.Decimal
import RowRecipe.Json.Basic

/-!
Reading JSON. A reader of a part takes the text from where the part starts and gives the part and the
text after it. A whole text is one value between blanks. A member that repeats keeps its first place
and its last value; a number past the range of floating-point values, half of a surrogate pair, a bare
control character in a string and too deep a nesting are refused. Numbers with many digits or large
exponents are not always read as the nearest floating-point value: their first digits, as far as 64 bits
hold them, are scaled by a power of ten.
-/

namespace RowRecipe.Json

/-- How many arrays and objects may stand inside one another. -/
def maxDepth : Nat := 127

def isJsonBlank (c : Char) : Bool :=
  c == ' ' || c == '\n' || c == '\t' || c == '\r'

def skipBlanks (cs : List Char) : List Char :=
  cs.dropWhile isJsonBlank

/-- Four hexadecimal digits. -/
def hexUnit? : List Char → Option (Nat × List Char)
  | a :: b :: c :: d :: rest => do
      let a ← Text.hexDigit? a
      let b ← Text.hexDigit? b
      let c ← Text.hexDigit? c
      let d ← Text.hexDigit? d
      some (((a * 16 + b) * 16 + c) * 16 + d, rest)
  | _ => none

/-- The character of a `\u` escape. One past the 16 bits of the escape takes two of them. -/
def unicodeEscape? (cs : List Char) : Option (Char × List Char) :=
  match hexUnit? cs with
  | none => none
  | some (unit, rest) =>
      if 0xD800 ≤ unit && unit < 0xDC00 then
        match rest with
        | '\\' :: 'u' :: second =>
            match hexUnit? second with
            | some (low, rest) =>
                if 0xDC00 ≤ low && low < 0xE000 then
                  some (Char.ofNat (0x10000 + (unit - 0xD800) * 0x400 + (low - 0xDC00)), rest)
                else none
            | none => none
        | _ => none
      else if 0xDC00 ≤ unit && unit < 0xE000 then none
      else some (Char.ofNat unit, rest)

/-- One character of a string, which may be written with several. -/
def stringChar? : List Char → Option (Char × List Char)
  | [] => none
  | '\\' :: 'u' :: rest => unicodeEscape? rest
  | '\\' :: c :: rest =>
      if c = '"' || c = '\\' || c = '/' then some (c, rest)
      else if c = 'b' then some (Char.ofNat 8, rest)
      else if c = 'f' then some (Char.ofNat 12, rest)
      else if c = 'n' then some ('\n', rest)
      else if c = 'r' then some ('\r', rest)
      else if c = 't' then some ('\t', rest)
      else none
  | c :: rest => if c.toNat < 32 then none else some (c, rest)

/-- The rest of a string after its opening quote. -/
def stringRest? : Nat → List Char → Option (List Char × List Char)
  | 0, _ => none
  | _ + 1, '"' :: rest => some ([], rest)
  | fuel + 1, cs =>
      match stringChar? cs with
      | none => none
      | some (c, rest) => (stringRest? fuel rest).map fun (text, rest) => (c :: text, rest)

/-- The whole part of a number: a zero, or digits that do not start with one. -/
def wholePart? : List Char → Option (List Char × List Char)
  | '0' :: rest => some (['0'], rest)
  | cs =>
      let digits := cs.takeWhile Char.isDigit
      if digits.isEmpty then none else some (digits, cs.dropWhile Char.isDigit)

/-- The fraction of a number: nothing, or a point and digits. -/
def fractionPart? : List Char → Option (List Char × List Char)
  | '.' :: rest =>
      let digits := rest.takeWhile Char.isDigit
      if digits.isEmpty then none else some (digits, rest.dropWhile Char.isDigit)
  | rest => some ([], rest)

/-- The exponent of a number: nothing, or `e`, an optional sign and digits. -/
def exponentPart? : List Char → Option (Option (Bool × Nat) × List Char)
  | c :: rest =>
      if c = 'e' || c = 'E' then
        let (negative, rest) := Binary64.takeSign rest
        let digits := rest.takeWhile Char.isDigit
        if digits.isEmpty then none
        else some (some (negative, Text.digitsValue digits), rest.dropWhile Char.isDigit)
      else some (none, c :: rest)
  | [] => some (none, [])

/-- Takes digits into a significand for as long as it has 64 bits, and gives it with the digits that are
left. -/
def takeDigits : Nat → List Char → Nat × List Char
  | significand, [] => (significand, [])
  | significand, c :: rest =>
      let next := 10 * significand + (c.toNat - '0'.toNat)
      if next < 2 ^ 64 then takeDigits next rest else (significand, c :: rest)

/-- The power of ten of such an exponent. -/
def powerOfTen (n : Nat) : Binary64 := Binary64.ofNat (10 ^ n)

/-- A magnitude times a power of ten, by one multiplication or by divisions, so that the last place may
be off; nothing past the range of floating-point values. -/
def scaled? (x : Binary64) (exponent : Int) : Option Binary64 :=
  if exponent < -308 then
    if x = Binary64.zero false then some x else scaled? (x.div (powerOfTen 308)) (exponent + 308)
  else if exponent < 0 then some (x.div (powerOfTen (-exponent).toNat))
  else if exponent ≤ 308 then
    let product := x.mul (powerOfTen exponent.toNat)
    if product.isFinite then some product else none
  else if x = Binary64.zero false then some x
  else none
termination_by (-exponent).toNat
decreasing_by omega

/-- The floating-point value of a significand, the exponent that its digits give it, and the exponent that
is written. One past 32 bits counts as endless. -/
def realOf? (negative : Bool) (significand : Nat) (exponent : Int) (written : Option (Bool × Nat)) :
    Option Binary64 :=
  let magnitude? := match written with
    | none => scaled? (Binary64.ofNat significand) exponent
    | some (down, size) =>
        if size < 2 ^ 31 then
          scaled? (Binary64.ofNat significand) (if down then exponent - size else exponent + size)
        else if significand = 0 || down then some (Binary64.zero false)
        else none
  magnitude?.map (Binary64.withSign negative)

/-- The number that the parts write. Whole numbers that fit 64 bits stay exact, except for a zero
with a sign. Any other number has as many of its digits as fit 64 bits; those behind them only count. -/
def numberOf? (negative : Bool) (whole fraction : List Char) (exponent : Option (Bool × Nat)) :
    Option Number :=
  let (size, unread) := takeDigits 0 whole
  if fraction.isEmpty && exponent.isNone && unread.isEmpty && !negative then
    some (.integer size)
  else if fraction.isEmpty && exponent.isNone && unread.isEmpty && 0 < size && size ≤ 2 ^ 63 then
    some (.integer (-size))
  else
    let (significand, dropped) := takeDigits size fraction
    let behind : Int := unread.length - (fraction.length - dropped.length)
    (realOf? negative significand behind exponent).map .real

def number? (cs : List Char) : Option (Number × List Char) := do
  let (negative, rest) := match cs with
    | '-' :: rest => (true, rest)
    | rest => (false, rest)
  let (whole, rest) ← wholePart? rest
  let (fraction, rest) ← fractionPart? rest
  let (exponent, rest) ← exponentPart? rest
  let n ← numberOf? negative whole fraction exponent
  some (n, rest)

mutual

/-- A value, with so many levels of nesting left. Every call that goes on has taken a character or
leads to one that takes it, so twice the length of the text is fuel enough. -/
def value? : Nat → Nat → List Char → Option (Json × List Char)
  | 0, _, _ => none
  | fuel + 1, depth, cs =>
      match skipBlanks cs with
      | 'n' :: 'u' :: 'l' :: 'l' :: rest => some (.null, rest)
      | 't' :: 'r' :: 'u' :: 'e' :: rest => some (.bool true, rest)
      | 'f' :: 'a' :: 'l' :: 's' :: 'e' :: rest => some (.bool false, rest)
      | '"' :: rest =>
          (stringRest? (rest.length + 1) rest).map fun (text, rest) =>
            (.string (String.ofList text), rest)
      | '[' :: rest =>
          if depth = 0 then none
          else
            match skipBlanks rest with
            | ']' :: rest => some (.array [], rest)
            | rest => (elements? fuel (depth - 1) rest).map fun (elements, rest) =>
                (.array elements, rest)
      | '{' :: rest =>
          if depth = 0 then none
          else
            match skipBlanks rest with
            | '}' :: rest => some (.object [], rest)
            | rest => (members? fuel (depth - 1) rest).map fun (members, rest) =>
                (.object (Entries.ofList members), rest)
      | rest => (number? rest).map fun (n, rest) => (.number n, rest)

/-- One or more values up to the closing bracket. -/
def elements? : Nat → Nat → List Char → Option (List Json × List Char)
  | 0, _, _ => none
  | fuel + 1, depth, cs =>
      match value? fuel depth cs with
      | none => none
      | some (value, rest) =>
          match skipBlanks rest with
          | ',' :: rest => (elements? fuel depth rest).map fun (values, rest) =>
              (value :: values, rest)
          | ']' :: rest => some ([value], rest)
          | _ => none

/-- One or more members up to the closing brace. -/
def members? : Nat → Nat → List Char → Option (List (String × Json) × List Char)
  | 0, _, _ => none
  | fuel + 1, depth, cs =>
      match skipBlanks cs with
      | '"' :: rest =>
          match stringRest? (rest.length + 1) rest with
          | none => none
          | some (name, rest) =>
              match skipBlanks rest with
              | ':' :: rest =>
                  match value? fuel depth rest with
                  | none => none
                  | some (value, rest) =>
                      match skipBlanks rest with
                      | ',' :: rest => (members? fuel depth rest).map fun (members, rest) =>
                          ((String.ofList name, value) :: members, rest)
                      | '}' :: rest => some ([(String.ofList name, value)], rest)
                      | _ => none
              | _ => none
      | _ => none

end

/-- The value that a whole text writes. -/
def parse? (text : String) : Option Json :=
  let cs := text.toList
  match value? (2 * cs.length + 2) maxDepth cs with
  | some (json, rest) => if (skipBlanks rest).isEmpty then some json else none
  | none => none

/-- The value that a whole text writes; or that there is none. -/
def read (text : String) : Except String Json :=
  match parse? text with
  | some json => .ok json
  | none => .error "no JSON value"

end RowRecipe.Json
