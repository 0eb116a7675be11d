import RowRecipe.Lexeme.Pattern

/-!
Scanning a text into lexemes. Blanks and comments between lexemes are passed over; a newline is a
lexeme, so a comment stops in front of it.
-/

namespace RowRecipe.Lexeme

/-- The blanks that may stand anywhere between lexemes. -/
def isSkipped (c : Char) : Bool :=
  c == ' ' || c == '\t' || c == '\r' || c.toNat == 12

/-- How many characters to pass over at the start of a text: one blank, or one comment. -/
def skip? : List Char → Option Nat
  | '/' :: '/' :: rest => some (2 + (rest.takeWhile (· != '\n')).length)
  | c :: _ => if isSkipped c then some 1 else none
  | [] => none

/-- The lexemes of a text that starts at an offset. Each step passes over something or takes a lexeme,
so the length of the text is fuel enough. -/
def scanFrom : Nat → List Char → Nat → Except Failure (List Lexeme)
  | _, [], _ => .ok []
  | 0, c :: _, start => .error ⟨start, Issue.ofChar c⟩
  | fuel + 1, c :: rest, start =>
      let cs := c :: rest
      match skip? cs with
      | some n => scanFrom fuel (cs.drop n) (start + Text.byteLength (cs.take n))
      | none =>
          match Pattern.longest cs with
          | none => .error ⟨start, Issue.ofChar c⟩
          | some (kind, n) =>
              let found : Lexeme := ⟨kind, cs.take n, start⟩
              (scanFrom fuel (cs.drop n) found.stop).map (found :: ·)

/-- The lexemes of a text, its first character standing at offset `base`. -/
def scan (cs : List Char) (base : Nat) : Except Failure (List Lexeme) :=
  scanFrom cs.length cs base

end RowRecipe.Lexeme
