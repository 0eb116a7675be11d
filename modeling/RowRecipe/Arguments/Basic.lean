import RowRecipe.SymbolTable.Basic
import RowRecipe.Usage

/-!
Binding the tokens of a directive to the parameters of its usage. Tokens and parameters are matched
place by place and by kind; parameters may only be left out at the end.
-/

namespace RowRecipe

/-- Why tokens do not fit a usage, or why an argument cannot be read. -/
inductive BindError where
  | notSupplied (directive name : String)
  | typeMismatch (directive name : String) (expected found : TokenKind)
  | missingRequired (directive name : String) (kind : TokenKind) (usage : String)
  /-- There are more tokens than parameters. Positions count from one. -/
  | unexpectedArgument (directive : String) (position : Nat) (kind : TokenKind) (usage : String)
  /-- The tokens do not start with the name of a directive. -/
  | missingDirectiveName (span : Span)
deriving DecidableEq

def BindError.message : BindError → String
  | .notSupplied directive name =>
      s!"directive '{directive}': argument '{name}' was not supplied"
  | .typeMismatch directive name expected found =>
      s!"directive '{directive}': argument '{name}' expects {expected.name}, found {found.name}"
  | .missingRequired directive name kind usage =>
      s!"directive '{directive}' is missing required argument '{name}' ({kind.name}); " ++
        s!"usage: {usage}"
  | .unexpectedArgument directive position kind usage =>
      s!"directive '{directive}' got an unexpected {kind.name} argument at position {position}; " ++
        s!"usage: {usage}"
  | .missingDirectiveName span =>
      s!"directive at line {span.startLine} does not start with a directive name: '{span.source}'"

/-- The arguments of one directive by the names of their parameters. -/
structure Arguments where
  directive : String
  values : OrderedMap String Token
  span : Span

namespace Arguments

/-- Binds tokens to parameters from the front. Parameters left over must be optional; tokens left over
are given back. -/
def match? (usage : Usage) :
    List Usage.Parameter → List Token → OrderedMap String Token →
      Except BindError (OrderedMap String Token × List Token)
  | [], tokens, bound => .ok (bound, tokens)
  | p :: parameters, [], bound =>
      if p.optional then match? usage parameters [] bound
      else .error (.missingRequired usage.directive p.name p.kind usage.line)
  | p :: parameters, token :: tokens, bound =>
      if token.kind = p.kind then match? usage parameters tokens (bound.insert p.name token)
      else .error (.typeMismatch usage.directive p.name p.kind token.kind)

/-- The arguments that a group of tokens gives to the parameters of a usage. -/
def bind (usage : Usage) (group : TokenGroup) : Except BindError Arguments :=
  match group.tokens with
  | .directiveName _ :: tokens =>
      match match? usage usage.parameters tokens .empty with
      | .error e => .error e
      | .ok (bound, []) => .ok ⟨usage.directive, bound, group.span⟩
      | .ok (_, extra :: _) =>
          .error (.unexpectedArgument usage.directive (usage.parameters.length + 1) extra.kind
            usage.line)
  | _ => .error (.missingDirectiveName group.span)

def size (args : Arguments) : Nat := args.values.size

def isEmpty (args : Arguments) : Bool := args.values.isEmpty

/-- Whether an argument of that name was given. -/
def contains (args : Arguments) (name : String) : Bool := args.values.contains name

/-- The token of an argument that was given. -/
def value (args : Arguments) (name : String) : Except BindError Token :=
  match args.values.get? name with
  | some token => .ok token
  | none => .error (.notSupplied args.directive name)

end Arguments

end RowRecipe
