import RowRecipe.AggregateStats.Basic
import RowRecipe.Pipeline.Basic

/-!
Passing all rows of an input through a pipeline: in batches for which room is made beforehand, or in a
single one.
-/

namespace RowRecipe

/-- For how many rows at once room can be made. No block of memory is as long as 2^63 bytes, so there is
no room for so many rows. -/
structure Room where
  holds : Nat → Bool
  limited : ∀ size, holds size = true → size < 2 ^ 63

/-- The room of a memory in which every block fits that may be asked for. A row takes 72 bytes. -/
def Room.ofAddresses : Room where
  holds size := 72 * size < 2 ^ 63
  limited size h := by
    have hsize : 72 * size < 2 ^ 63 := of_decide_eq_true h
    omega

/-- Batches of `size` elements each, the last of which may have fewer. A size of zero puts all
elements into one batch. -/
def cut {α : Type} (size : Nat) : List α → List (List α)
  | [] => []
  | a :: rest =>
      if _hzero : size = 0 then [a :: rest]
      else (a :: rest).take size :: cut size ((a :: rest).drop size)
termination_by elements => elements.length
decreasing_by
  simp only [List.length_drop, List.length_cons]
  omega

/-- Cuts elements into batches, if there is room for a whole batch. Room for the first one is made
before there is an element to be put in it, and however few elements there are. -/
def intoBatches? {α : Type} (room : Room) (size : Nat) (elements : List α) : Option (List (List α)) :=
  if room.holds size then some (cut size elements) else none

/-- The rows that a recipe makes of the given ones in a single batch, with the directives that every
recipe can use. -/
def executeRecipe (source : String) (rows : List Row) : Except RecipeError (List Row) :=
  match (Pipeline.compile source .builtin .testing).1 with
  | .error e => .error e
  | .ok p => (p.executeBatch rows true).1.mapError .directive

end RowRecipe
