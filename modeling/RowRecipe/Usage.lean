import RowRecipe.Token.Kind

/-!
Usages: what arguments a directive takes, in their order, and how that is shown to its users.
-/

namespace RowRecipe

namespace Usage

structure Parameter where
  name : String
  kind : TokenKind
  optional : Bool
deriving DecidableEq

/-- The form of an argument of this kind; brackets are put around it if it may be left out. -/
def Parameter.render (p : Parameter) : String :=
  let name := p.name
  let body := match p.kind with
    | .columnName => s!":{name}"
    | .columnNameList => s!":{name}[,:{name}...]"
    | .text => s!"'{name}'"
    | .textList => s!"'{name}'[,'{name}'...]"
    | .numericList | .boolList => s!"<{name}>[,<{name}>...]"
    | .properties => "prop:\x7b" ++ name ++ "\x7d"
    | .expression => "exp:\x7b" ++ name ++ "\x7d"
    | _ => s!"<{name}>"
  if p.optional then s!"[{body}]" else body

end Usage

/-- The name of a directive and its parameters. -/
structure Usage where
  directive : String
  parameters : List Usage.Parameter
deriving DecidableEq

namespace Usage

/-- A usage without parameters, to which they are added one by one. -/
def ofName (directive : String) : Usage := ⟨directive, []⟩

/-- Adds a parameter that must be given. -/
def require (name : String) (kind : TokenKind) (u : Usage) : Usage :=
  { u with parameters := u.parameters ++ [⟨name, kind, false⟩] }

/-- Adds a parameter that may be left out. -/
def allow (name : String) (kind : TokenKind) (u : Usage) : Usage :=
  { u with parameters := u.parameters ++ [⟨name, kind, true⟩] }

def parameter? (name : String) (u : Usage) : Option Parameter :=
  u.parameters.find? fun p => p.name == name

/-- How many parameters must be given. -/
def requiredCount (u : Usage) : Nat :=
  (u.parameters.filter fun p => !p.optional).length

/-- The line that shows how a directive is used. -/
def line (u : Usage) : String :=
  " ".intercalate (u.directive :: u.parameters.map Parameter.render)

end Usage

end RowRecipe
