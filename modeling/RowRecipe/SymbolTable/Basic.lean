import RowRecipe.Source.Span
import RowRecipe.Token.Json

/-!
The compiled form of a recipe: a group of tokens for every directive, in the order of the text, and
what the pragmas declare.
-/

namespace RowRecipe

/-- The tokens of one directive and its place. -/
structure TokenGroup where
  tokens : List Token
  span : Span

namespace TokenGroup

/-- The name of the directive, which is the first token. -/
def directiveName? (group : TokenGroup) : Option String :=
  match group.tokens with
  | .directiveName name :: _ => some name
  | _ => none

def json (group : TokenGroup) : Json :=
  .object [("source", group.span.json), ("tokens", .array (group.tokens.map Token.json))]

end TokenGroup

structure SymbolTable where
  groups : List TokenGroup
  /-- The directives asked for by name, each once, in the order in which they were first named. -/
  loadables : List String
  version : Option String

namespace SymbolTable

def empty : SymbolTable := ⟨[], [], none⟩

def json (table : SymbolTable) : Json :=
  .object [("version", match table.version with
      | some version => .string version
      | none => .null),
    ("load_directives", Json.ofStrings table.loadables),
    ("directives", .array (table.groups.map TokenGroup.json))]

end SymbolTable

end RowRecipe
