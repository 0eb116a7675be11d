import RowRecipe.Source.Position
import RowRecipe.Source.Span

/-!
Syntax trees of recipes. A node carries the rule it was made by, the text it covers, the places of
its first and its last character, and its children.
-/

namespace RowRecipe

/-- The rules of the grammar. -/
inductive Rule where
  | recipe
  | directive
  /-- The name of a directive. -/
  | command
  /-- The name of a custom directive, with the mark in front of it. -/
  | customCommand
  | identifier
  | column
  | columnList
  | text
  | textList
  | number
  | numberList
  | bool
  | boolList
  | byteSize
  | timeDuration
  | propertyList
  | property
  | rangeList
  | range
  | condition
  | loadPragma
  | versionPragma
deriving DecidableEq

namespace Rule

/-- The rule as messages call it. -/
def name : Rule → String
  | .recipe => "Recipe"
  | .directive => "Directive"
  | .command => "Command"
  | .customCommand => "Ecommand"
  | .identifier => "Identifier"
  | .column => "Column"
  | .columnList => "ColList"
  | .text => "Text"
  | .textList => "StringList"
  | .number => "Number"
  | .numberList => "NumberList"
  | .bool => "Bool"
  | .boolList => "BoolList"
  | .byteSize => "ByteSize"
  | .timeDuration => "TimeDuration"
  | .propertyList => "PropertyList"
  | .property => "Property"
  | .rangeList => "NumberRanges"
  | .range => "NumberRange"
  | .condition => "Condition"
  | .loadPragma => "PragmaLoadDirective"
  | .versionPragma => "PragmaVersion"

def all : List Rule :=
  [.recipe, .directive, .command, .customCommand, .identifier, .column, .columnList, .text, .textList,
   .number, .numberList, .bool, .boolList, .byteSize, .timeDuration, .propertyList, .property,
   .rangeList, .range, .condition, .loadPragma, .versionPragma]

def named? (name : String) : Option Rule := all.find? fun rule => rule.name == name

end Rule

structure Node where
  rule : Rule
  text : String
  /-- The place of the first character. -/
  start : Position
  /-- The place of the last character. -/
  stop : Position
  children : List Node

namespace Node

/-- The children made by a rule, in their order. -/
def childrenBy (rule : Rule) (node : Node) : List Node :=
  node.children.filter fun child => child.rule == rule

/-- The first child made by a rule. -/
def child? (rule : Rule) (node : Node) : Option Node :=
  (node.childrenBy rule).head?

/-- The offset after the last character. -/
def endOffset (node : Node) : Nat :=
  node.start.offset + Text.byteLength node.text.toList

/-- The place of a node as a span, whose end column is the first one past the node. -/
def span (node : Node) : Span where
  startLine := node.start.line
  startColumn := node.start.column
  endLine := node.stop.line
  endColumn := node.stop.column + 1
  source := node.text

/-- The place of the last character of a text that ends at an offset; of no text, the place where it
starts. -/
def lastPlace (source text : List Char) (start stop : Nat) : Position :=
  match text.getLast? with
  | some c => Position.ofOffset source (stop - c.utf8Size)
  | none => Position.ofOffset source start

/-- The node of a rule over the part of a source from one offset up to another. -/
def cover (source : List Char) (rule : Rule) (start stop : Nat) (children : List Node) : Node :=
  let text := Text.slice source start stop
  ⟨rule, String.ofList text, Position.ofOffset source start, lastPlace source text start stop,
    children⟩

end Node

end RowRecipe
