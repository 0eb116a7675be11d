import RowRecipe.Text.Utf8

/-!
Places in a text. An offset counts bytes, a line counts from one, and a column counts the characters
since the start of its line. A line is known by the offset at which it starts.
-/

namespace RowRecipe

namespace Text

/-- Where lines start behind the newlines of a text that stands at an offset itself. -/
def lineStartsAfter : Nat → List Char → List Nat
  | _, [] => []
  | offset, c :: rest =>
      let next := offset + c.utf8Size
      if c = '\n' then next :: lineStartsAfter next rest else lineStartsAfter next rest

/-- Where the lines of a text start. -/
def lineStarts (source : List Char) : List Nat :=
  0 :: lineStartsAfter 0 source

end Text

/-- A place in a text. -/
structure Position where
  offset : Nat
  line : Nat
  column : Nat
deriving DecidableEq

instance : Inhabited Position := ⟨⟨0, 0, 0⟩⟩

/-- The place at an offset of a source. Its line is the last one that starts at the offset or in front
of it. -/
def Position.ofOffset (source : List Char) (offset : Nat) : Position :=
  let starts := Text.lineStarts source
  let line := max 1 (starts.takeWhile (· ≤ offset)).length
  ⟨offset, line, (Text.slice source (starts.getD (line - 1) 0) offset).length⟩

end RowRecipe
