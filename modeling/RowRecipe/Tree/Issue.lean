import RowRecipe.Lexeme.Basic

/-!
What can be wrong with the text of a recipe: no lexeme starts somewhere, or the lexemes do not fit the
grammar. An issue names its cause; the wording is in one place.
-/

namespace RowRecipe

/-- What the grammar asks for at a place where it finds something else. -/
inductive Wanted where
  | directiveName
  | customName
  | pragmaName
  | loadableName
  | version
  | terminator
  /-- One more item of a list. -/
  | item (kind : Lexeme.Kind)
  | argument
  | rangeLow
  | rangeColon
  | rangeHigh
  | rangeEquals
  | rangeValue
  | propertyName
  | propertyEquals
  | propertyValue
  | propertyComma
deriving DecidableEq

inductive GrammarIssue where
  | lexical (issue : Lexeme.Issue)
  /-- Something is missing where another lexeme stands, or none at all. -/
  | expected (wanted : Wanted) (found : Option Lexeme.Kind)
  | unknownPragma (name : String)
deriving DecidableEq

/-- What was found, as messages call it. -/
def foundText : Option Lexeme.Kind → String
  | some kind => kind.describe
  | none => "end of input"

/-- The first half of a message about something that is missing. No argument starts with the lexeme
found, so that lexeme itself is what was not expected. -/
def Wanted.message (found : Option Lexeme.Kind) : Wanted → String
  | .directiveName => "expected directive name"
  | .customName => "expected identifier after '!'"
  | .pragmaName => "expected identifier after '#pragma'"
  | .loadableName => "expected identifier in load-directives list"
  | .version => "expected version after 'version'"
  | .terminator => "expected ';' or newline after directive"
  | .item kind => s!"expected {kind.describe} after ','"
  | .argument => s!"unexpected {foundText found}"
  | .rangeLow => "expected number as range lower bound"
  | .rangeColon => "expected ':' in range"
  | .rangeHigh => "expected number as range upper bound"
  | .rangeEquals => "expected '=' after range bounds"
  | .rangeValue => "expected range value"
  | .propertyName => "expected property name"
  | .propertyEquals => "expected '=' after property name"
  | .propertyValue => "expected property value"
  | .propertyComma => "expected ',' between properties"

def GrammarIssue.message : GrammarIssue → String
  | .lexical issue => issue.message
  | .expected wanted found => s!"{wanted.message found}, found {foundText found}"
  | .unknownPragma name => s!"unknown pragma '{name}'"

/-- An issue and the offset it was met at. -/
structure GrammarFault where
  offset : Nat
  issue : GrammarIssue
deriving DecidableEq

/-- An issue and its place in the recipe. -/
structure GrammarError where
  line : Nat
  column : Nat
  issue : GrammarIssue
deriving DecidableEq

end RowRecipe
