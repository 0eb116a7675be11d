import RowRecipe.Memory
import RowRecipe.Settings.Basic

/-!
The context of a run: what all batches of the run share, and what a directive can see of it.
-/

namespace RowRecipe

structure Context where
  environment : Environment
  memory : Memory
  /-- How many batches have begun. -/
  batches : Nat
  /-- The last batch of the run has begun. -/
  isFinal : Bool

namespace Context

/-- The context in which a run begins. -/
def fresh (environment : Environment) : Context := ⟨environment, .empty, 0, false⟩

/-- Begins a batch. Once one was the last, all that follow in the same run are. -/
def beginBatch (isLast : Bool) (c : Context) : Context :=
  { c with batches := c.batches + 1, isFinal := c.isFinal || isLast }

/-- Ends a batch: what was to be remembered for the batch alone is forgotten. -/
def endBatch (c : Context) : Context :=
  { c with memory := c.memory.clear .batch }

/-- Carries out writes of the directive at a position. -/
def writeAll (owner : Nat) (writes : List Memory.Write) (c : Context) : Context :=
  { c with memory := c.memory.writeAll owner writes }

end Context

/-- The context as the directive at a position sees it. -/
structure View where
  context : Context
  owner : Nat

namespace View

/-- What the directive has stored under a key. -/
def get? (v : View) (lifetime : Lifetime) (key : String) : Option Cell :=
  v.context.memory.get? lifetime v.owner key

/-- The view after the directive has written. -/
def after (v : View) (writes : List Memory.Write) : View :=
  { v with context := v.context.writeAll v.owner writes }

end View

end RowRecipe
