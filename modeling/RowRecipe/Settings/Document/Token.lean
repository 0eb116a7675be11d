/-!
The tokens of a settings document. Blocks, which are written by indentation alone, have tokens for
their starts and ends like collections in brackets.

Scalars stand without quotes, as plain ones, or with them. Only a plain scalar can be a number or nothing
at all; a quoted one is always a text.
-/

namespace RowRecipe.Settings

structure Scalar where
  plain : Bool
  text : List Char
deriving DecidableEq

namespace Scalar

/-- What stands where nothing was written. -/
def nothing : Scalar := ⟨true, []⟩

/-- Nothing was written, or a name for nothing. -/
def isNull (s : Scalar) : Bool :=
  s.plain && (s.text.isEmpty || s.text == ['~'] ||
    s.text ∈ [['n', 'u', 'l', 'l'], ['N', 'u', 'l', 'l'], ['N', 'U', 'L', 'L']])

end Scalar

namespace Document

inductive Token where
  | documentStart
  | documentEnd
  | blockMapping
  | blockSequence
  | blockEnd
  | openBrace
  | closeBrace
  | openBracket
  | closeBracket
  | comma
  /-- The hyphen in front of an element of a block sequence. -/
  | dash
  /-- A name follows. A question mark writes this token; in front of most names nothing does. -/
  | key
  /-- The colon in front of a value. -/
  | value
  | scalar (s : Scalar)
deriving DecidableEq

end Document

end RowRecipe.Settings
