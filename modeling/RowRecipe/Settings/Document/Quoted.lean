import RowRecipe.Settings.Document.Space
import RowRecipe.Text.Character

/-!
Quoted texts of a settings document. In single quotes only the quote is special, and is written twice;
in double quotes a backslash starts an escape. Both may run over several lines, whose white space is
folded, but no line of them may look like the start or the end of a document.
-/

namespace RowRecipe.Settings.Document

/-- A character given by so many hexadecimal digits. -/
def hexChar? (count : Nat) (cs : List Char) : Option Char := do
  let digits ← (cs.take count).mapM Text.hexDigit?
  let code := digits.foldl (fun n d => 16 * n + d) 0
  if digits.length = count && code.isValidChar then some (Char.ofNat code) else none

/-- The characters that a backslash and one character stand for. -/
def shortEscape? (c : Char) : Option Char :=
  [('0', 0), ('a', 7), ('b', 8), ('t', 9), ('\t', 9), ('n', 10), ('v', 11), ('f', 12), ('r', 13),
   ('e', 27), (' ', 32), ('"', 34), ('/', 47), ('\\', 92), ('N', 0x85), ('_', 0xA0), ('L', 0x2028),
   ('P', 0x2029)].lookup c |>.map Char.ofNat

/-- The character that an escape stands for, and how many characters the escape takes after its
backslash. -/
def escape? : List Char → Option (Char × Nat)
  | [] => none
  | c :: rest =>
      if c = 'x' then (hexChar? 2 rest).map fun e => (e, 3)
      else if c = 'u' then (hexChar? 4 rest).map fun e => (e, 5)
      else if c = 'U' then (hexChar? 8 rest).map fun e => (e, 9)
      else (shortEscape? c).map fun e => (e, 1)

/-- After white space in quotes: no marker may start the line that the white space leads to. -/
def staysInside (space rest : List Char) : Bool := !(endsAtLineStart space && isAnyMarker rest)

/-- The text up to the closing quote of a text in single quotes, and what follows the quote. -/
def singleQuoted? : List Char → Option (List Char × List Char)
  | [] => none
  | '\x27' :: '\x27' :: rest => do
      let (text, after) ← singleQuoted? rest
      some ('\x27' :: text, after)
  | '\x27' :: rest => some ([], rest)
  | c :: rest =>
      if isSpace c then
        let space := c :: rest.takeWhile isSpace
        let next := rest.dropWhile isSpace
        if staysInside space next then do
          let (text, after) ← singleQuoted? next
          some (folded space ++ text, after)
        else none
      else do
        let (text, after) ← singleQuoted? rest
        some (c :: text, after)
termination_by cs => cs.length
decreasing_by
  · simp only [List.length_cons]
    omega
  · have := length_dropWhile_isSpace_le rest
    simp only [List.length_cons]
    omega
  · simp

/-- The text up to the closing quote of a text in double quotes, and what follows the quote. A
backslash at the end of a line joins the next line to it; of the white space in front of that line only
further breaks stay. -/
def doubleQuoted? : List Char → Option (List Char × List Char)
  | [] => none
  | '"' :: rest => some ([], rest)
  | '\\' :: rest =>
      if rest.head?.any isBreak then
        let space := rest.takeWhile isSpace
        let next := rest.dropWhile isSpace
        if staysInside space next then do
          let (text, after) ← doubleQuoted? next
          some ((space.drop 1).filter isBreak ++ text, after)
        else none
      else do
        let (c, count) ← escape? rest
        let (text, after) ← doubleQuoted? (rest.drop count)
        some (c :: text, after)
  | c :: rest =>
      if isSpace c then
        let space := c :: rest.takeWhile isSpace
        let next := rest.dropWhile isSpace
        if staysInside space next then do
          let (text, after) ← doubleQuoted? next
          some (folded space ++ text, after)
        else none
      else do
        let (text, after) ← doubleQuoted? rest
        some (c :: text, after)
termination_by cs => cs.length
decreasing_by
  · have := length_dropWhile_isSpace_le rest
    simp only [List.length_cons]
    omega
  · simp only [List.length_cons, List.length_drop]
    omega
  · have := length_dropWhile_isSpace_le rest
    simp only [List.length_cons]
    omega
  · simp

end RowRecipe.Settings.Document
