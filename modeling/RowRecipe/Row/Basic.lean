import RowRecipe.Row.Cell

/-!
Rows: cells by the names of their columns, in an order that setting a column again does not change.
-/

namespace RowRecipe

structure Row where
  columns : OrderedMap String Cell

/-- What a JSON value is instead of a row. -/
structure RowError where
  found : Json

def RowError.message (e : RowError) : String :=
  s!"row must be a JSON object, got {e.found.compact}"

namespace Row

def empty : Row := ⟨.empty⟩

/-- Sets a column. One that is present keeps its place. -/
def set (row : Row) (name : String) (cell : Cell) : Row :=
  ⟨row.columns.insert name cell⟩

def get? (row : Row) (name : String) : Option Cell := row.columns.get? name

/-- The cell of a column; a column that is missing counts as empty. -/
def value (row : Row) (name : String) : Cell := (row.get? name).getD .null

/-- Removes a column; the others keep their order. -/
def remove (row : Row) (name : String) : Row := ⟨row.columns.erase name⟩

/-- Removes a column and hands over its cell, if the row has one. -/
def takeOut (row : Row) (name : String) : Option Cell × Row :=
  let (found, columns) := row.columns.takeOut name
  (found, ⟨columns⟩)

def size (row : Row) : Nat := row.columns.size

def isEmpty (row : Row) : Bool := row.columns.isEmpty

/-- The names and the cells in their order. -/
def toList (row : Row) : List (String × Cell) := row.columns.entries

/-- The row that results from setting columns in turn. -/
def ofList (columns : List (String × Cell)) : Row := ⟨.ofList columns⟩

/-- Equal columns in any order. -/
def same (a b : Row) : Bool := a.columns.agree Cell.same b.columns

def json (row : Row) : Json :=
  .object (row.toList.map fun column => (column.1, column.2.json))

/-- The row of a JSON object. -/
def ofJson : Json → Except RowError Row
  | .object members => .ok (ofList (members.map fun m => (m.1, Cell.ofJson m.2)))
  | found => .error ⟨found⟩

end Row

end RowRecipe
