import RowRecipe.Token.Basic

/-!
Cells: the values in the columns of a row. A cell that comes from data is raw text until somebody
reads it as a quantity; blank cells and unreadable ones are told apart.
-/

namespace RowRecipe

inductive Cell where
  | null
  /-- Text as it came from data, which may still be the text of a quantity. -/
  | raw (content : String)
  | text (content : String)
  | bool (b : Bool)
  | int (i : Int)
  | float (x : Binary64)
  | byteSize (size : ByteSize)
  | timeDuration (duration : TimeDuration)
deriving DecidableEq

namespace Cell

def isNull : Cell → Bool
  | .null => true
  | _ => false

def string? : Cell → Option String
  | .raw s | .text s => some s
  | _ => none

def int? : Cell → Option Int
  | .int i => some i
  | _ => none

/-- The number in a cell that holds one. -/
def float? : Cell → Option Binary64
  | .int i => some (Binary64.ofInt i)
  | .float x => some x
  | _ => none

/-- The cell in text, as it is shown and as quantities are read from it. -/
def display : Cell → String
  | .null => "null"
  | .raw s | .text s => s
  | .bool b => boolName b
  | .int i => toString i
  | .float x => x.toText
  | .byteSize size => size.text
  | .timeDuration duration => duration.text

/-- The byte size in a cell: nothing in an empty cell, and what its text says in any other. -/
def byteSize? : Cell → Except UnitError (Option ByteSize)
  | .null => .ok none
  | .byteSize size => .ok (some size)
  | cell => (Quantity.parse cell.display).map some

/-- The duration in a cell: nothing in an empty cell, and what its text says in any other. -/
def timeDuration? : Cell → Except UnitError (Option TimeDuration)
  | .null => .ok none
  | .timeDuration duration => .ok (some duration)
  | cell => (Quantity.parse cell.display).map some

/-- The cell as data. Quantities are their texts, and what is no number of JSON is nothing. -/
def json : Cell → Json
  | .null => .null
  | .raw s | .text s => .string s
  | .bool b => .bool b
  | .int i => Json.ofInt i
  | .float x => (Json.ofBinary64? x).getD .null
  | .byteSize size => .string size.text
  | .timeDuration duration => .string duration.text

/-- The cell of a JSON value. Text stays raw; a collection is kept as its text. -/
def ofJson : Json → Cell
  | .null => .null
  | .bool b => .bool b
  | .number n =>
      match n.signed64? with
      | some i => .int i
      | none => .float n.toBinary64
  | .string s => .raw s
  | collection => .raw collection.compact

/-- Equality by value, within one form of cell. -/
def same : Cell → Cell → Bool
  | .null, .null => true
  | .raw a, .raw b => a == b
  | .text a, .text b => a == b
  | .bool a, .bool b => a == b
  | .int a, .int b => a == b
  | .float a, .float b => a.equals b
  | .byteSize a, .byteSize b => a.same b
  | .timeDuration a, .timeDuration b => a.same b
  | _, _ => false

end Cell

end RowRecipe
