import RowRecipe.Directive.Basic

/-!
Registries: the directives that recipes can use, by their names.
-/

namespace RowRecipe

structure Registry where
  directives : OrderedMap String Directive

namespace Registry

def empty : Registry := ⟨.empty⟩

/-- Registers a directive under a name, in place of the one that had it, and says whether there was
one. -/
def register (r : Registry) (name : String) (directive : Directive) : Bool × Registry :=
  (r.directives.contains name, ⟨r.directives.insert name directive⟩)

/-- The registry of directives that are given with their names. -/
def ofList (directives : List (String × Directive)) : Registry := ⟨.ofList directives⟩

def contains (r : Registry) (name : String) : Bool := r.directives.contains name

/-- The directive of a name, not prepared. -/
def get? (r : Registry) (name : String) : Option Directive := r.directives.get? name

def usage? (r : Registry) (name : String) : Option Usage := (r.get? name).map Directive.usage

/-- The names in the order in which they were first registered. -/
def names (r : Registry) : List String := r.directives.keys

def size (r : Registry) : Nat := r.directives.size

def isEmpty (r : Registry) : Bool := r.directives.isEmpty

end Registry

end RowRecipe
