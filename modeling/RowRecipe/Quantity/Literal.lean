import RowRecipe.Quantity.Basic
import RowRecipe.Text.Character

/-!
Reading quantities. A literal is a number and a suffix, with white space around and between them.
Digits of any script and letters that only fold to those of a unit keep the shape of a literal, but
only ASCII digits have a magnitude and only ASCII letters name a unit: the shape decides which error
is reported.
-/

namespace RowRecipe

/-- The two parts of a literal. -/
structure Literal where
  number : List Char
  suffix : List Char
deriving DecidableEq

namespace Literal

/-- A fraction is a point and at least one digit; otherwise nothing is taken. -/
def takeFraction : List Char → List Char × List Char
  | '.' :: rest =>
      let digits := rest.takeWhile Text.isDecimalDigit
      if digits.isEmpty then ([], '.' :: rest)
      else ('.' :: digits, rest.dropWhile Text.isDecimalDigit)
  | rest => ([], rest)

/-- Splits a text that starts with a number into the number and all that follows it. -/
def split? (cs : List Char) : Option Literal :=
  let start := Text.trimStart cs
  let whole := start.takeWhile Text.isDecimalDigit
  if whole.isEmpty then none
  else
    let (fraction, rest) := takeFraction (start.dropWhile Text.isDecimalDigit)
    some ⟨whole ++ fraction, Text.trim rest⟩

/-- Simple case folding of a letter. Outside ASCII, the Kelvin sign folds to `k` and the long s to
`s`; no other character folds to a letter of ASCII. -/
def foldCase (c : Char) : Char :=
  if c.toNat = 0x212A then 'k' else if c.toNat = 0x17F then 's' else c.toLower

/-- The suffix folds to the spelling of a unit of the family. -/
def foldsToUnit (U : Type) [UnitFamily U] (suffix : List Char) : Bool :=
  (UnitFamily.all : List U).any fun u =>
    (UnitFamily.symbol u).toList.map Char.toLower == suffix.map foldCase

/-- One or more letters of ASCII. -/
def isWord (suffix : List Char) : Bool :=
  !suffix.isEmpty && suffix.all Char.isAlpha

end Literal

namespace Quantity

open UnitFamily

variable {U : Type} [UnitFamily U]

/-- The quantity that a text writes. -/
def parse (text : String) : Except UnitError (Quantity U) :=
  match Literal.split? text.toList with
  | none => .error (.format (kind U) text)
  | some ⟨number, suffix⟩ =>
      let unknown := UnitError.unrecognizedUnit (kind U) (String.ofList suffix) text
      if Literal.foldsToUnit U suffix then
        match Binary64.parse? number, named? suffix with
        | none, _ => .error (.format (kind U) text)
        | some _, none => .error unknown
        | some value, some unit => .ok ⟨text, value, unit⟩
      else if Literal.isWord suffix then .error unknown
      else .error (.format (kind U) text)

/-- No text, and text that is blank, is no quantity and no error. -/
def parseOptional : Option String → Except UnitError (Option (Quantity U))
  | none => .ok none
  | some text => if Text.isBlankText text then .ok none else (parse text).map some

end Quantity

end RowRecipe
