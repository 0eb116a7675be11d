import RowRecipe.Json.Printer
import RowRecipe.Text.Character

/-!
Numbers as they are written. A numeral keeps its text, so that a very long one loses nothing until
somebody asks for a value, and it always has a finite one.
-/

namespace RowRecipe

/-- The text of a number whose nearest floating-point value is finite. -/
structure Numeral where
  text : String
  value : Binary64
  reads : Binary64.parse? text.toList = some value
  finite : value.isFinite = true

namespace Numeral

/-- The numeral that a text writes; white space around it does not count. -/
def parse? (text : String) : Option Numeral :=
  let core := Text.trimmed text
  match h : Binary64.parse? core.toList with
  | some value => if hfinite : value.isFinite = true then some ⟨core, value, h, hfinite⟩ else none
  | none => none

/-- The value as a whole number of 64 bits with a sign, if the text writes one. -/
def signed64? (n : Numeral) : Option Int := Text.signed64? n.text.toList

/-- The value as a whole number of 64 bits without a sign, if the text writes one. -/
def unsigned64? (n : Numeral) : Option Nat := Text.unsigned64? n.text.toList

/-- Equality by value: exact between whole numbers of 64 bits with a sign, and between floating-point
values otherwise. -/
def same (a b : Numeral) : Bool :=
  match a.signed64?, b.signed64? with
  | some i, some j => i == j
  | _, _ => a.value.equals b.value

/-- A whole number where the text writes one of 64 bits, a floating-point number otherwise. -/
def json (n : Numeral) : Json :=
  match n.signed64?, n.unsigned64? with
  | some i, _ => Json.ofInt i
  | none, some k => Json.ofNat k
  | none, none => .number (.real n.value)

end Numeral

end RowRecipe
