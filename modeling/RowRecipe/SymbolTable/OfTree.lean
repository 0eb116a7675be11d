import RowRecipe.SymbolTable.Builder
import RowRecipe.SymbolTable.Error
import RowRecipe.Tree.Recipe

/-!
Compiling a recipe. Every directive of the tree becomes a group of tokens, one for each child, and
every pragma is recorded on the table. Any tree can be compiled, whoever made it: one of another shape
than the grammar's is refused with the fault that was met first.
-/

namespace RowRecipe

namespace Node

/-- Removes one pair of equal quotes around a text. -/
def unquoted (cs : List Char) : List Char :=
  match Text.trim cs with
  | q :: rest =>
      if (q = '\x27' || q = '"') && rest.getLast? == some q then rest.dropLast else q :: rest
  | [] => []

def unquotedText (node : Node) : String := String.ofList (unquoted node.text.toList)

/-- The name of a column, without the colons in front of it. -/
def columnName (node : Node) : String :=
  String.ofList ((Text.trim node.text.toList).dropWhile (· == ':'))

def boolValue (node : Node) : Bool :=
  Text.sameIgnoringCase (Text.trim node.text.toList) ['t', 'r', 'u', 'e']

/-- The text after a first part, or the whole text if it does not start with that part. -/
def afterOptional (first cs : List Char) : List Char :=
  if first.isPrefixOf cs then Text.trimStart (cs.drop first.length) else cs

/-- The text between an opening brace at its start and a closing one at its end; without both, the
text as it is. -/
def betweenBraces : List Char → List Char
  | '{' :: rest => if rest.getLast? = some '}' then rest.dropLast else '{' :: rest
  | cs => cs

/-- The body of an expression: what follows `exp` and a colon, neither of which has to be there,
without the outer braces. -/
def expressionBody (cs : List Char) : List Char :=
  Text.trim (betweenBraces (afterOptional [':'] (afterOptional ['e', 'x', 'p'] cs)))

/-- The number that a node writes, in the directive at a span. -/
def numeral (span : Span) (node : Node) : Except CompileError Numeral :=
  match Numeral.parse? node.text with
  | some n => .ok n
  | none => .error (.invalidNumber span (Text.trimmed node.text))

def quantity {U : Type} [UnitFamily U] (span : Span) (node : Node) :
    Except CompileError (Quantity U) :=
  (Quantity.parse (Text.trimmed node.text)).mapError (CompileError.ofUnit span)

/-- The value of a property, which is a single item. -/
def propertyValue (span : Span) (node : Node) : Except CompileError Token :=
  match node.rule with
  | .number => (node.numeral span).map .numeric
  | .bool => .ok (.bool node.boolValue)
  | .text | .identifier => .ok (.text node.unquotedText)
  | rule => .error (.malformedTree span (.notAPropertyValue rule))

def propertyEntry (span : Span) (node : Node) : Except CompileError (String × Token) :=
  match node.children with
  | [key, value] => (value.propertyValue span).map fun token => (key.unquotedText, token)
  | _ => .error (.malformedTree span (.propertyParts node.text))

def numericRange (span : Span) (node : Node) : Except CompileError NumericRange :=
  match node.children with
  | [low, high, label] => do
      let low ← low.numeral span
      let high ← high.numeral span
      .ok ⟨low, high, label.unquotedText⟩
  | _ => .error (.malformedTree span (.rangeParts node.text))

/-- The token of a child of the directive at a span. -/
def token (span : Span) (node : Node) : Except CompileError Token :=
  let text := Text.trim node.text.toList
  match node.rule with
  | .command => .ok (.directiveName (String.ofList text))
  | .customCommand => .ok (.directiveName (String.ofList (text.dropWhile (· == '!'))))
  | .identifier => .ok (.identifier (String.ofList text))
  | .column => .ok (.columnName node.columnName)
  | .columnList => .ok (.columnNameList ((node.childrenBy .column).map columnName))
  | .text => .ok (.text node.unquotedText)
  | .textList => .ok (.textList ((node.childrenBy .text).map unquotedText))
  | .number => (node.numeral span).map .numeric
  | .numberList => ((node.childrenBy .number).mapM (numeral span)).map .numericList
  | .bool => .ok (.bool node.boolValue)
  | .boolList => .ok (.boolList ((node.childrenBy .bool).map boolValue))
  | .byteSize => (node.quantity span).map .byteSize
  | .timeDuration => (node.quantity span).map .timeDuration
  | .propertyList =>
      ((node.childrenBy .property).mapM (propertyEntry span)).map fun entries =>
        .properties (Entries.ofList entries)
  | .rangeList => ((node.childrenBy .range).mapM (numericRange span)).map .ranges
  | .condition => .ok (.expression (String.ofList (expressionBody text)))
  | rule => .error (.malformedTree span (.notAnArgument rule))

end Node

namespace SymbolTable

open Builder

/-- Adds the token of a child to the group of the directive at a span. -/
def addToken (span : Span) (b : Builder) (child : Node) : Except CompileError Builder := do
  let token ← child.token span
  match b.push? token with
  | some b => .ok b
  | none => .error (.malformedTree span .tokenOutsideDirective)

def addDirective (b : Builder) (node : Node) : Except CompileError Builder := do
  let b ← node.children.foldlM (addToken node.span) (b.openGroup node.span)
  .ok b.closeGroup

/-- Adds a child of the root. -/
def addItem (b : Builder) (node : Node) : Except CompileError Builder :=
  match node.rule with
  | .directive => addDirective b node
  | .loadPragma =>
      .ok ((node.childrenBy .identifier).foldl
        (fun b name => b.addLoadable (Text.trimmed name.text)) b.closeGroup)
  | .versionPragma =>
      match node.children with
      | version :: _ => .ok (b.closeGroup.setVersion (Text.trimmed version.text))
      | [] => .ok b.closeGroup
  | rule => .error (.malformedTree node.span (.notAtRecipeLevel rule))

/-- The table of a tree. -/
def ofTree (tree : Node) : Except CompileError SymbolTable :=
  (tree.children.foldlM addItem Builder.empty).map build

/-- The table of a recipe's text. -/
def compile (source : String) : Except CompileError SymbolTable := do
  let tree ← (Node.parse source).mapError .grammar
  ofTree tree

end SymbolTable

end RowRecipe
