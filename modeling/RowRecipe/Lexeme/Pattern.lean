import RowRecipe.Lexeme.Basic
import RowRecipe.Lexeme.Block
import RowRecipe.Text.Character

/-!
What lexemes look like. Each pattern takes a text and says how many characters its longest match at
the start of the text has; the lexeme there is the longest match of all patterns, and of two equally
long ones the first in the list.
-/

namespace RowRecipe.Lexeme

/-- The length of a longest match at the start of a text. -/
abbrev Pattern := List Char → Option Nat

namespace Pattern

/-- Exactly the given characters. -/
def literal (expected : List Char) : Pattern := fun cs =>
  if expected.isPrefixOf cs then some expected.length else none

/-- The given word, in any case of its ASCII letters. -/
def word (expected : List Char) : Pattern := fun cs =>
  let found := cs.take expected.length
  if Text.sameIgnoringCase expected found then some expected.length else none

/-- One character of a class and then any number of another class. -/
def name (starts continues : Char → Bool) : Pattern
  | c :: rest => if starts c then some (1 + (rest.takeWhile continues).length) else none
  | [] => none

def startsName (c : Char) : Bool := c.isAlpha || c == '_'

def continuesName (c : Char) : Bool := c.isAlphanum || c == '_' || c == '-'

def startsColumn (c : Char) : Bool := startsName c || c == '@' || c == '$'

def continuesColumn (c : Char) : Bool := continuesName c || c == '.' || c == '@' || c == '$'

/-- A name that starts with a letter or an underscore. -/
def identifier : Pattern := name startsName continuesName

/-- A colon and the name of a column right after it. -/
def column : Pattern
  | ':' :: rest => (name startsColumn continuesColumn rest).map (· + 1)
  | _ => none

/-- The part of a quoted text after its opening quote. A backslash protects any character but a
newline, and only a protected quote does not end the text. -/
def quotedRest (quote : Char) : Pattern
  | [] => none
  | '\\' :: rest =>
      match rest with
      | [] => none
      | c :: rest => if c = '\n' then none else (quotedRest quote rest).map (· + 2)
  | c :: rest => if c = quote then some 1 else (quotedRest quote rest).map (· + 1)

/-- A text in single or in double quotes. -/
def string : Pattern
  | c :: rest => if Block.isQuote c then (quotedRest c rest).map (· + 1) else none
  | [] => none

/-- Digits, and a fraction if a point and a digit follow. -/
def unsignedNumber : Pattern := fun cs =>
  let whole := (cs.takeWhile Char.isDigit).length
  if whole = 0 then none
  else
    match cs.drop whole with
    | '.' :: rest =>
        let fraction := (rest.takeWhile Char.isDigit).length
        some (if fraction = 0 then whole else whole + 1 + fraction)
    | _ => some whole

/-- A number, which may have a minus sign. -/
def number : Pattern
  | '-' :: rest => (unsignedNumber rest).map (· + 1)
  | cs => unsignedNumber cs

/-- A number without a sign and one or more letters right after it. Where a fraction is not followed
by letters there is no shorter match either, since a point is no letter. -/
def unitLiteral : Pattern := fun cs =>
  match unsignedNumber cs with
  | none => none
  | some n =>
      let letters := ((cs.drop n).takeWhile Char.isAlpha).length
      if letters = 0 then none else some (n + letters)

def block : Pattern := Block.length?

/-- The patterns of all kinds. Booleans stand before names, so that a name as long as a boolean is
one. -/
def all : List (Kind × Pattern) :=
  [(.newline, literal ['\n']),
   (.pragma, literal ['#', 'p', 'r', 'a', 'g', 'm', 'a']),
   (.semicolon, literal [';']),
   (.comma, literal [',']),
   (.colon, literal [':']),
   (.equals, literal ['=']),
   (.bang, literal ['!']),
   (.bool, word ['t', 'r', 'u', 'e']),
   (.bool, word ['f', 'a', 'l', 's', 'e']),
   (.column, column),
   (.string, string),
   (.number, number),
   (.unitLiteral, unitLiteral),
   (.identifier, identifier),
   (.block, block)]

/-- Keeps the longer of two matches, the first one if they are equally long. -/
def longer (best : Option (Kind × Nat)) (kind : Kind) : Option Nat → Option (Kind × Nat)
  | none => best
  | some n =>
      match best with
      | some (k, m) => if m < n then some (kind, n) else some (k, m)
      | none => some (kind, n)

/-- The kind and the length of the lexeme at the start of a text. -/
def longest (cs : List Char) : Option (Kind × Nat) :=
  all.foldl (fun best p => longer best p.1 (p.2 cs)) none

end Pattern

end RowRecipe.Lexeme
