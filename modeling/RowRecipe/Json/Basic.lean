import RowRecipe.Binary64.Basic
import RowRecipe.OrderedMap

/-!
JSON values. Whole numbers of 64 bits, signed or unsigned, are kept apart from floating-point ones,
and an object keeps the order of its members. There are no other whole numbers than those, no
floating-point values that are not finite, and no keys that repeat in an object.
-/

namespace RowRecipe

/-- A number: whole numbers from -2^63 up to 2^64 - 1 are kept exactly, all others are finite
floating-point values. -/
inductive Json.Number where
  | integer (i : Int)
  | real (x : Binary64)
deriving DecidableEq

inductive Json where
  | null
  | bool (b : Bool)
  | number (n : Json.Number)
  | string (s : String)
  | array (elements : List Json)
  | object (members : List (String × Json))
deriving Inhabited

namespace Json

/-- The whole number of 64 bits with a sign, if the number is one. -/
def Number.signed64? : Number → Option Int
  | .integer i => if -(2 ^ 63) ≤ i && i < 2 ^ 63 then some i else none
  | .real _ => none

/-- The nearest floating-point value. -/
def Number.toBinary64 : Number → Binary64
  | .integer i => Binary64.ofInt i
  | .real x => x

def ofInt (i : Int) : Json := .number (.integer i)

def ofNat (n : Nat) : Json := .number (.integer n)

/-- A floating-point value, for which JSON has no form unless it is finite. -/
def ofBinary64? (x : Binary64) : Option Json :=
  if x.isFinite then some (.number (.real x)) else none

def ofStrings (texts : List String) : Json := .array (texts.map .string)

/-- The member of an object with the given name; other values have no members. -/
def member? (name : String) : Json → Option Json
  | .object members => Entries.get? name members
  | _ => none

/-- The number has a form in JSON. -/
def Number.Proper : Number → Prop
  | .integer i => -(2 ^ 63) ≤ i ∧ i < 2 ^ 64
  | .real x => x.isFinite = true

/-- The value has a form in JSON. -/
inductive Proper : Json → Prop
  | null : Proper .null
  | bool (b : Bool) : Proper (.bool b)
  | number {n : Number} (h : n.Proper) : Proper (.number n)
  | string (s : String) : Proper (.string s)
  | array {elements : List Json} (h : ∀ e ∈ elements, Proper e) : Proper (.array elements)
  | object {members : List (String × Json)} (hdistinct : (members.map Prod.fst).Nodup)
      (h : ∀ m ∈ members, Proper m.2) : Proper (.object members)

/-- The value has no values inside of it. -/
def IsScalar : Json → Prop
  | .array _ | .object _ => False
  | _ => True

end Json

/-- A value found among members is smaller than the list of them. -/
theorem Json.sizeOf_get? {name : String} {value : Json} :
    ∀ {entries : List (String × Json)}, Entries.get? name entries = some value →
      sizeOf value < sizeOf entries
  | [], h => by simp [Entries.get?] at h
  | (k, a) :: rest, h => by
      simp only [Entries.get?] at h
      split at h
      · obtain rfl : a = value := by simpa using h
        simp only [List.cons.sizeOf_spec, Prod.mk.sizeOf_spec]
        omega
      · have := Json.sizeOf_get? h
        simp only [List.cons.sizeOf_spec]
        omega

/-- A member is smaller than its object. -/
theorem Json.sizeOf_member? {name : String} {json value : Json}
    (h : json.member? name = some value) : sizeOf value < sizeOf json := by
  cases json with
  | object members =>
      have := Json.sizeOf_get? h
      simp only [Json.object.sizeOf_spec]
      omega
  | _ => simp [Json.member?] at h

end RowRecipe
