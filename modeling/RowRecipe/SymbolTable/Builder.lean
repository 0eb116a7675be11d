import RowRecipe.SymbolTable.Basic

/-!
Building a symbol table step by step. At most one group is open at a time; tokens go into the open
group, and opening another group or building the table closes it.
-/

namespace RowRecipe.SymbolTable

structure Builder where
  /-- What is finished. -/
  table : SymbolTable
  current : Option TokenGroup

namespace Builder

def empty : Builder := ⟨.empty, none⟩

/-- Moves the open group, if there is one, to the finished ones. -/
def closeGroup (b : Builder) : Builder :=
  match b.current with
  | some group => ⟨{ b.table with groups := b.table.groups ++ [group] }, none⟩
  | none => b

/-- Opens an empty group; the one that was open is closed. -/
def openGroup (span : Span) (b : Builder) : Builder :=
  { b.closeGroup with current := some ⟨[], span⟩ }

/-- Adds a token to the open group, if one is open. -/
def push? (token : Token) (b : Builder) : Option Builder :=
  b.current.map fun group =>
    { b with current := some { group with tokens := group.tokens ++ [token] } }

/-- Asks for a directive; asking again changes nothing. -/
def addLoadable (name : String) (b : Builder) : Builder :=
  if name ∈ b.table.loadables then b
  else { b with table := { b.table with loadables := b.table.loadables ++ [name] } }

/-- Declares a version in place of any declared before. -/
def setVersion (version : String) (b : Builder) : Builder :=
  { b with table := { b.table with version := some version } }

/-- The finished table. -/
def build (b : Builder) : SymbolTable := b.closeGroup.table

end Builder

end RowRecipe.SymbolTable
