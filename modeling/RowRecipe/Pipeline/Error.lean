import RowRecipe.Directive.Basic
import RowRecipe.SymbolTable.Error

/-!
Why a recipe cannot be run.
-/

namespace RowRecipe

inductive RecipeError where
  | compile (error : CompileError)
  | bind (error : BindError)
  | directive (error : DirectiveError)
  /-- The recipe uses a directive that is not registered. -/
  | unknownDirective (name : String) (span : Span)
  /-- A pragma of the recipe asks for a directive that is not registered. -/
  | unknownLoadable (name : String)
  /-- The recipe declares another version than the settings require. -/
  | versionMismatch (required declared : String)
deriving DecidableEq

def RecipeError.message : RecipeError → String
  | .compile e => e.message
  | .bind e => e.message
  | .directive e => e.message
  | .unknownDirective name span => s!"unknown directive '{name}' at line {span.startLine}"
  | .unknownLoadable name =>
      s!"#pragma load-directives requested unknown directive '{name}'"
  | .versionMismatch required declared =>
      s!"recipe declares grammar version {declared}, configuration requires {required}"

end RowRecipe
