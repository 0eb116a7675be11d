/-!
White space of settings documents: blanks and line breaks, places in a text that are counted by them,
and the folding of white space inside a scalar.
-/

namespace RowRecipe.Settings.Document

/-- Characters that may stand in a document: no control characters apart from tabs and line breaks. -/
def isAllowed (c : Char) : Bool :=
  let n := c.toNat
  n == 9 || n == 10 || n == 13 || (0x20 ≤ n && n ≤ 0x7E) || n == 0x85 ||
    (0xA0 ≤ n && n != 0xFFFE && n != 0xFFFF)

/-- The line breaks CR, CR LF and NEL written as newlines. -/
def withNewlines : List Char → List Char
  | [] => []
  | '\r' :: '\n' :: rest => '\n' :: withNewlines rest
  | c :: rest => (if c = '\r' || c.toNat = 0x85 then '\n' else c) :: withNewlines rest

def isBlank (c : Char) : Bool := c == ' ' || c == '\t'

/-- Newlines and the separators U+2028 and U+2029 end a line. -/
def isBreak (c : Char) : Bool := c == '\n' || c.toNat == 0x2028 || c.toNat == 0x2029

def isSpace (c : Char) : Bool := isBlank c || isBreak c

theorem length_dropWhile_isSpace_le (cs : List Char) :
    (cs.dropWhile isSpace).length ≤ cs.length :=
  (List.dropWhile_sublist isSpace).length_le

/-- White space follows, or nothing. -/
def atSpace (cs : List Char) : Bool := cs.head?.all isSpace

def isByteOrderMark (c : Char) : Bool := c.toNat == 0xFEFF

/-- Three times a character and nothing joined to it. At the start of a line this marks the start of
a document (with hyphens) or its end (with full stops). -/
def isMarker (c : Char) (cs : List Char) : Bool :=
  cs.take 3 == [c, c, c] && atSpace (cs.drop 3)

def isAnyMarker (cs : List Char) : Bool := isMarker '-' cs || isMarker '.' cs

/-- A place in a text: how many lines end before it and how many characters stand before it in its
own line. -/
structure Place where
  line : Nat
  column : Nat
deriving DecidableEq

namespace Place

def next (p : Place) (c : Char) : Place :=
  if isBreak c then ⟨p.line + 1, 0⟩ else ⟨p.line, p.column + 1⟩

/-- The place behind a text that starts at this one. -/
def after (p : Place) (cs : List Char) : Place := cs.foldl next p

end Place

/-- What white space inside a scalar stands for. Blanks inside a line stay as they are. Around line
breaks blanks are dropped, a single newline becomes a blank, and of several breaks all but a first
newline stay. -/
def folded (space : List Char) : List Char :=
  match space.filter isBreak with
  | [] => space
  | ['\n'] => [' ']
  | '\n' :: more => more
  | breaks => breaks

/-- White space that ends at the start of a line. -/
def endsAtLineStart (space : List Char) : Bool := space.getLast?.any isBreak

end RowRecipe.Settings.Document
