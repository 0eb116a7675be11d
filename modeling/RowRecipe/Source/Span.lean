import RowRecipe.Json.Basic

/-!
Spans: where in its recipe a directive stands, together with its text there.
-/

namespace RowRecipe

/-- The place of a directive. Lines count from one and columns from zero; the end column is the first
one past the directive. -/
structure Span where
  startLine : Nat
  startColumn : Nat
  endLine : Nat
  endColumn : Nat
  source : String
deriving DecidableEq, Inhabited

namespace Span

def json (s : Span) : Json :=
  .object [("line", Json.ofNat s.startLine), ("column", Json.ofNat s.startColumn),
    ("endLine", Json.ofNat s.endLine), ("endColumn", Json.ofNat s.endColumn),
    ("source", .string s.source)]

/-- A number at the right of a field of three characters. -/
def padLeft (n : Nat) : String :=
  let digits := toString n
  String.ofList (List.replicate (3 - digits.length) ' ') ++ digits

/-- A number at the left of a field of three characters. -/
def padRight (n : Nat) : String :=
  let digits := toString n
  digits ++ String.ofList (List.replicate (3 - digits.length) ' ')

/-- Line and column in a field of three characters each, then the text. -/
def display (s : Span) : String :=
  s!"{padLeft s.startLine}:{padRight s.startColumn} - '{s.source}'"

end Span

end RowRecipe
