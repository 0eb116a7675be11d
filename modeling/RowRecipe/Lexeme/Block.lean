/-!
Brace blocks. A block runs from an opening brace to the brace that closes it. Braces inside a quoted
section do not count; such a section ends at the quote it began with, and a backslash in it protects
the character that follows.
-/

namespace RowRecipe.Lexeme.Block

/-- Where a scan stands: how many braces are open, and the quote of an open section, if any, with
whether a backslash protects the next character. -/
structure State where
  depth : Nat
  quote : Option (Char × Bool)
deriving DecidableEq

def isQuote (c : Char) : Bool := c == '\x27' || c == '"'

/-- The scan after one more character. -/
def State.step (s : State) (c : Char) : State :=
  match s.quote with
  | some (q, true) => { s with quote := some (q, false) }
  | some (q, false) =>
      if c = '\\' then { s with quote := some (q, true) }
      else if c = q then { s with quote := none }
      else s
  | none =>
      if isQuote c then { s with quote := some (c, false) }
      else if c = '{' then { s with depth := s.depth + 1 }
      else if c = '}' then { s with depth := s.depth - 1 }
      else s

/-- How many characters it takes until no brace is open, if that ever happens. -/
def scan (s : State) : List Char → Option Nat
  | [] => none
  | c :: rest =>
      let next := s.step c
      if next.depth = 0 then some 1 else (scan next rest).map (· + 1)

/-- The length of the block at the start of a text, both braces included. -/
def length? : List Char → Option Nat
  | '{' :: rest => (scan ⟨1, none⟩ rest).map (· + 1)
  | _ => none

end RowRecipe.Lexeme.Block
