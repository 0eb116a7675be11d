import RowRecipe.Arguments.Access
import RowRecipe.Context
import RowRecipe.Row.Basic

/-!
Directives: the steps that recipes are made of. A directive has a usage, is prepared with the arguments
of one occurrence in a recipe, and then passes rows on batch by batch. It may keep a state of any
type, and it reaches the memory of a run only through its own entries.
-/

namespace RowRecipe

inductive DirectiveError where
  /-- The directive does not accept its arguments. -/
  | initialization (directive message : String)
  /-- The directive cannot process a batch. -/
  | execution (directive column message : String)
  /-- The directive asked for an argument that it was not given. -/
  | bind (error : BindError)
deriving DecidableEq

def DirectiveError.message : DirectiveError → String
  | .initialization directive message => s!"directive '{directive}' rejected its arguments: {message}"
  | .execution directive column message =>
      s!"directive '{directive}' failed on column '{column}': {message}"
  | .bind e => e.message

namespace Directive

/-- How it went to prepare a directive, its state from then on, and lines for those who watch. -/
structure Preparation (S : Type) where
  outcome : Except DirectiveError Unit
  state : S
  notes : List String

/-- What a directive made of a batch: the rows to pass on, its state from then on, what it wrote to
its memory, which counts even if the batch failed, and lines for those who watch. -/
structure Execution (S : Type) where
  outcome : Except DirectiveError (List Row)
  state : S
  writes : List Memory.Write
  notes : List String

end Directive

structure Directive where
  State : Type
  /-- The state before the directive is prepared. -/
  start : State
  usage : Usage
  prepare : Arguments → State → Directive.Preparation State
  execute : List Row → View → State → Directive.Execution State
  /-- What there is to note when the directive is destroyed. -/
  destroy : State → List String

end RowRecipe
