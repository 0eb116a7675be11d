import RowRecipe.Binary64.Style
import RowRecipe.Text.Character

/-!
Quantities: a magnitude in a unit, together with the text it was written as. A family of units says
how its units are spelled and how many base units each of them holds; everything else about
quantities is the same for all families.
-/

namespace RowRecipe

/-- Units that measure the same thing. -/
class UnitFamily (U : Type) where
  /-- What the units measure, as it is called in messages. -/
  kind : String
  /-- All units, the smallest first. -/
  all : List U
  /-- The smallest unit, in which all others are counted. -/
  base : U
  symbol : U → String
  /-- Base units in one unit. -/
  factor : U → Nat

/-- Why a text is no quantity of a family. -/
inductive UnitError where
  /-- It is not a number followed by a unit. -/
  | format (kind text : String)
  /-- It is one, but of no unit of the family. -/
  | unrecognizedUnit (kind unit text : String)
deriving DecidableEq

def UnitError.message : UnitError → String
  | .format kind text => s!"invalid {kind} format: '{text}'"
  | .unrecognizedUnit kind unit text => s!"unrecognized {kind} unit '{unit}' in '{text}'"

namespace UnitFamily

variable {U : Type} [UnitFamily U]

/-- The unit of a given spelling; white space around it and the case of ASCII letters do not
count. -/
def named? (name : List Char) : Option U :=
  (all : List U).find? fun u => Text.sameIgnoringCase (symbol u).toList (Text.trim name)

/-- A name by itself must be that of a unit. -/
def ofName (name : String) : Except UnitError U :=
  match named? name.toList with
  | some u => .ok u
  | none => .error (.unrecognizedUnit (kind U) name name)

/-- A magnitude in one unit expressed in another. Between equal units nothing is computed. -/
def convert [DecidableEq U] (source : U) (value : Binary64) (target : U) : Binary64 :=
  if source = target then value
  else value * Binary64.ofNat (factor source) / Binary64.ofNat (factor target)

end UnitFamily

/-- A magnitude in a unit. -/
structure Quantity (U : Type) where
  /-- The text the quantity came from. -/
  text : String
  value : Binary64
  unit : U
deriving DecidableEq

namespace Quantity

open UnitFamily

variable {U : Type} [UnitFamily U]

/-- A quantity that comes from no text is written as its magnitude and its unit. -/
def ofValue (value : Binary64) (unit : U) : Quantity U :=
  ⟨value.toText ++ symbol unit, value, unit⟩

/-- A count of base units. -/
def ofCount (n : Nat) : Quantity U :=
  ofValue (Binary64.ofNat n) base

/-- The count of base units, its fraction dropped and limited to 64 bits. -/
def count (q : Quantity U) : Nat :=
  (q.value * Binary64.ofNat (factor q.unit)).toUnsigned64

/-- The magnitude in another unit. -/
def valueIn [DecidableEq U] (q : Quantity U) (target : U) : Binary64 :=
  convert q.unit q.value target

/-- The quantity in another unit; in its own unit it is itself, text included. -/
def inUnit [DecidableEq U] (q : Quantity U) (target : U) : Quantity U :=
  if q.unit = target then q else ofValue (q.valueIn target) target

/-- The magnitude with a fixed count of places, followed by the unit. -/
def format (q : Quantity U) (places : Nat) : String :=
  String.ofList (q.value.writeFixed places) ++ symbol q.unit

/-- Same text, equal magnitude, same unit. -/
def same [DecidableEq U] (a b : Quantity U) : Bool :=
  a.text == b.text && a.value.equals b.value && a.unit == b.unit

end Quantity

end RowRecipe
