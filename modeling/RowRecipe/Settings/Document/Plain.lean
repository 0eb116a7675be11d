import RowRecipe.Settings.Document.Space

/-!
Plain texts of a settings document: words, and white space between them that is folded. In flow style
(inside brackets and braces) the characters that structure it end a word.
-/

namespace RowRecipe.Settings.Document

/-- Characters that structure flow style. -/
def isFlowIndicator (c : Char) : Bool :=
  c == ',' || c == '[' || c == ']' || c == '\x7b' || c == '\x7d'

/-- Characters that do not start a plain text, whatever follows them. -/
def isIndicator (c : Char) : Bool :=
  isFlowIndicator c || c == '#' || c == '&' || c == '*' || c == '!' || c == '|' || c == '>' ||
    c == '\x27' || c == '"' || c == '%' || c == '@' || c.toNat == 0x60

/-- A plain text starts here. In flow style no question mark and no colon starts one. -/
def startsPlain (inFlow : Bool) : List Char → Bool
  | [] => false
  | c :: rest =>
      if c = '-' then !atSpace rest
      else if c = '?' || c = ':' then !inFlow && !atSpace rest
      else !isSpace c && !isIndicator c

/-- A word ends in front of this: white space or nothing follows, a colon that parts a name from its
value, or, in flow style, an indicator. -/
def endsWord (inFlow : Bool) : List Char → Bool
  | [] => true
  | c :: rest => isSpace c || (c == ':' && atSpace rest) || (inFlow && isFlowIndicator c)

/-- A colon in flow style that neither parts a name from its value nor belongs to a word. -/
def isStrayColon (inFlow : Bool) : List Char → Bool
  | ':' :: c :: _ => inFlow && (isFlowIndicator c || c == '?')
  | _ => false

/-- The length of the word at the start of a text. -/
def wordLength? (inFlow : Bool) : List Char → Option Nat
  | [] => some 0
  | c :: rest =>
      if isStrayColon inFlow (c :: rest) then none
      else if endsWord inFlow (c :: rest) then some 0
      else (wordLength? inFlow rest).map (· + 1)

/-- A tab stands where white space over several lines has to be indented. -/
def hasTabInIndent (indent : Nat) : List Char → Bool
  | [] => false
  | c :: rest =>
      (isBreak c && '\t' ∈ (rest.takeWhile isBlank).take indent) || hasTabInIndent indent rest

/-- What follows white space does not belong to the plain text in front of it: a comment, or a line
that is not indented deep enough or starts with a marker. -/
def leavesPlain (inFlow : Bool) (indent : Nat) (space rest : List Char) : Bool :=
  let column := (space.reverse.takeWhile isBlank).length
  rest.head? == some '#' || (space.any isBreak &&
    ((!inFlow && column < indent) || (column == 0 && isAnyMarker rest)))

/-- A plain text: what it says, whether a line ends behind its last word, and what follows it and the
white space behind it. -/
structure Plain where
  text : List Char
  endsLine : Bool
  rest : List Char

/-- The part of a plain text behind one of its words. -/
def plainTail? (inFlow : Bool) (indent : Nat) : List Char → Option Plain
  | [] => some ⟨[], false, []⟩
  | c :: cs =>
      let space := c :: cs.takeWhile isSpace
      let rest := cs.dropWhile isSpace
      let ended : Plain := ⟨[], space.any isBreak, rest⟩
      if !isSpace c then some ⟨[], false, c :: cs⟩
      else if hasTabInIndent indent space then none
      else if leavesPlain inFlow indent space rest then some ended
      else do
        let count ← wordLength? inFlow rest
        if count = 0 then some ended
        else
          let more ← plainTail? inFlow indent (rest.drop count)
          some { more with text := folded space ++ rest.take count ++ more.text }
termination_by cs => cs.length
decreasing_by
  have := length_dropWhile_isSpace_le cs
  simp only [List.length_cons, List.length_drop]
  omega

/-- The plain text at the start of a text. Its further lines are indented at least as deep as given. -/
def plain? (inFlow : Bool) (indent : Nat) (cs : List Char) : Option Plain := do
  let count ← wordLength? inFlow cs
  let more ← plainTail? inFlow indent (cs.drop count)
  some { more with text := cs.take count ++ more.text }

end RowRecipe.Settings.Document
