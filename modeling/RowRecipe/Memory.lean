import RowRecipe.OrderedMap
import RowRecipe.Row.Cell

/-!
What the directives of a recipe remember while it runs. Every entry belongs to the directive at one
position of the recipe, so two directives can use the same key without meeting each other's cells.
-/

namespace RowRecipe

/-- How long an entry is remembered. -/
inductive Lifetime where
  /-- From batch to batch, up to the end of the run. -/
  | run
  /-- Up to the end of the batch. -/
  | batch
deriving DecidableEq

/-- Cells by their lifetime, the position of the directive they belong to, and a key. -/
structure Memory where
  entries : OrderedMap (Lifetime × Nat × String) Cell

namespace Memory

def empty : Memory := ⟨.empty⟩

def get? (m : Memory) (lifetime : Lifetime) (owner : Nat) (key : String) : Option Cell :=
  m.entries.get? (lifetime, owner, key)

def insert (m : Memory) (lifetime : Lifetime) (owner : Nat) (key : String) (cell : Cell) : Memory :=
  ⟨m.entries.insert (lifetime, owner, key) cell⟩

def erase (m : Memory) (lifetime : Lifetime) (owner : Nat) (key : String) : Memory :=
  ⟨m.entries.erase (lifetime, owner, key)⟩

/-- Forgets all entries of a lifetime. -/
def clear (m : Memory) (lifetime : Lifetime) : Memory :=
  ⟨m.entries.filter fun place => place.1 != lifetime⟩

def size (m : Memory) : Nat := m.entries.size

def isEmpty (m : Memory) : Bool := m.entries.isEmpty

/-- What a directive can do to its own entries. -/
inductive Write where
  | set (lifetime : Lifetime) (key : String) (cell : Cell)
  | forget (lifetime : Lifetime) (key : String)
deriving DecidableEq

/-- Carries out a write of the directive at a position. -/
def write (owner : Nat) (m : Memory) : Write → Memory
  | .set lifetime key cell => m.insert lifetime owner key cell
  | .forget lifetime key => m.erase lifetime owner key

/-- Carries out writes of the directive at a position, one after another. -/
def writeAll (owner : Nat) (m : Memory) (writes : List Write) : Memory :=
  writes.foldl (write owner) m

end Memory

end RowRecipe
