import RowRecipe.Quantity.Basic
import RowRecipe.Source.Span
import RowRecipe.Tree.Basic
import RowRecipe.Tree.Issue

/-!
Why a recipe does not compile.
-/

namespace RowRecipe

/-- Why a tree is none of a recipe. Trees read from a text never have such a fault. -/
inductive TreeFault where
  | notAtRecipeLevel (rule : Rule)
  | notAnArgument (rule : Rule)
  | propertyParts (text : String)
  | notAPropertyValue (rule : Rule)
  | rangeParts (text : String)
  | tokenOutsideDirective
deriving DecidableEq

def TreeFault.message : TreeFault → String
  | .notAtRecipeLevel rule => s!"unexpected {rule.name} at recipe level"
  | .notAnArgument rule => s!"{rule.name} is not a directive argument"
  | .propertyParts text => s!"property '{text}' needs a key and a value"
  | .notAPropertyValue rule => s!"{rule.name} is not a property value"
  | .rangeParts text => s!"range '{text}' needs low, high and value"
  | .tokenOutsideDirective => "token emitted outside a directive"

inductive CompileError where
  /-- The text is no recipe. -/
  | grammar (error : GrammarError)
  /-- A quantity has not the shape of one. -/
  | malformedLiteral (span : Span) (error : UnitError)
  /-- A quantity is in no known unit. -/
  | unrecognizedUnit (span : Span) (error : UnitError)
  /-- A number is past the range of floating-point values. -/
  | invalidNumber (span : Span) (text : String)
  | malformedTree (span : Span) (fault : TreeFault)
deriving DecidableEq

namespace CompileError

/-- A quantity that cannot be read, in the directive at a span. -/
def ofUnit (span : Span) : UnitError → CompileError
  | .format kind text => .malformedLiteral span (.format kind text)
  | .unrecognizedUnit kind unit text => .unrecognizedUnit span (.unrecognizedUnit kind unit text)

/-- The directive that the error lies in, where it lies in one. -/
def span? : CompileError → Option Span
  | .grammar _ => none
  | .malformedLiteral span _ | .unrecognizedUnit span _ | .invalidNumber span _
  | .malformedTree span _ => some span

def message : CompileError → String
  | .grammar e => s!"syntax error at line {e.line}, column {e.column}: {e.issue.message}"
  | .malformedLiteral span e =>
      s!"malformed literal in '{span.source}' at line {span.startLine}, " ++
        s!"column {span.startColumn}: {e.message}"
  | .unrecognizedUnit span e =>
      s!"unrecognized unit in '{span.source}' at line {span.startLine}, " ++
        s!"column {span.startColumn}: {e.message}"
  | .invalidNumber span text =>
      s!"numeric literal '{text}' out of range in '{span.source}' at line {span.startLine}"
  | .malformedTree span fault =>
      s!"malformed syntax tree at line {span.startLine}: {fault.message}"

end CompileError

end RowRecipe
