import RowRecipe.Context

/-!
Running totals. How many cells were added up and to what amount is kept for two columns, and between
batches both are kept in the memory of the run.
-/

namespace RowRecipe

/-- How many amounts were added, and their sum. -/
structure Tally where
  count : Nat
  total : Nat
deriving DecidableEq

namespace Tally

def zero : Tally := ⟨0, 0⟩

/-- The greatest sum that a tally can hold. -/
def limit : Nat := 2 ^ 63 - 1

/-- Adds an amount, unless the sum would pass the limit. -/
def add? (amount : Nat) (t : Tally) : Option Tally :=
  if t.total + amount ≤ limit then some ⟨t.count + 1, t.total + amount⟩ else none

end Tally

/-- Tallies of bytes and of nanoseconds. -/
structure Totals where
  bytes : Tally
  time : Tally
deriving DecidableEq

namespace Totals

def zero : Totals := ⟨.zero, .zero⟩

/-- The number stored under a key, or zero. -/
def number (view : View) (key : String) : Nat :=
  (((view.get? .run key).bind Cell.int?).getD 0).toNat

/-- The totals that a directive has kept. -/
def ofView (view : View) : Totals :=
  ⟨⟨number view "byte-count", number view "byte-total"⟩,
    ⟨number view "time-count", number view "time-total"⟩⟩

/-- What a directive writes to keep totals for the next batch. -/
def keep (t : Totals) : List Memory.Write :=
  [.set .run "byte-count" (.int t.bytes.count), .set .run "byte-total" (.int t.bytes.total),
   .set .run "time-count" (.int t.time.count), .set .run "time-total" (.int t.time.total)]

/-- What a directive writes to start again from nothing. -/
def forget : List Memory.Write :=
  ["byte-count", "byte-total", "time-count", "time-total"].map (.forget .run)

end Totals

end RowRecipe
