import RowRecipe.Settings.Document.Plain
import RowRecipe.Settings.Document.Quoted
import RowRecipe.Settings.Document.Token

/-!
From the text of a document to its tokens. Indentation opens and closes blocks. A name need not be
marked as one: whatever may be a name is remembered as a candidate, and its token is put in front of it
when its colon comes.

Of the notation this covers collections of both styles with plain and quoted scalars. Anchors, tags,
directives and scalars written as a block are refused.
-/

namespace RowRecipe.Settings.Document

/-- A token that may turn out to be a name: how many tokens stand before it, where it starts, and
whether only a name can stand there. -/
structure Candidate where
  position : Nat
  place : Place
  required : Bool

/-- A name is written in one line, and its colon follows within 1024 characters. -/
def Candidate.isLate (c : Candidate) (p : Place) : Bool :=
  c.place.line < p.line || c.place.column + 1024 < p.column

/-- What has been read of a document, and what the layout of the rest depends on. -/
structure Layout where
  place : Place
  /-- The columns of the open blocks, the innermost first. -/
  indents : List Nat
  candidate : Option Candidate
  /-- The candidates around the open brackets and braces, one for each, the innermost first. -/
  outer : List (Option Candidate)
  /-- A name may start at the next token. -/
  keyAllowed : Bool
  tokens : Array Token

namespace Layout

def start : Layout := ⟨⟨0, 0⟩, [], none, [], true, #[]⟩

/-- Inside brackets or braces indentation does not count. -/
def inFlow (l : Layout) : Bool := !l.outer.isEmpty

/-- The least indentation of a line that continues a scalar. -/
def innerIndent (l : Layout) : Nat := (l.indents.head?.map (· + 1)).getD 0

def push (l : Layout) (t : Token) : Layout := { l with tokens := l.tokens.push t }

def allowKey (l : Layout) (allowed : Bool) : Layout := { l with keyAllowed := allowed }

/-- There is no candidate any more, which is an error if it had to be a name. -/
def dropCandidate? (l : Layout) : Option Layout :=
  if l.candidate.any (·.required) then none else some { l with candidate := none }

/-- The next token becomes the candidate, if a name may start here. -/
def addCandidate? (l : Layout) : Option Layout :=
  if l.keyAllowed then do
    let required := !l.inFlow && l.indents.head? == some l.place.column
    let l ← l.dropCandidate?
    some { l with candidate := some ⟨l.tokens.size, l.place, required⟩ }
  else some l

/-- The candidates that may still be names. -/
def dropLate? (l : Layout) : Option Layout :=
  let isLate (c : Candidate) := c.isLate l.place
  let inTime (c : Option Candidate) := c.filter fun c => !isLate c
  if (l.candidate :: l.outer).any fun c => c.any fun c => c.required && isLate c then none
  else some { l with candidate := inTime l.candidate, outer := l.outer.map inTime }

/-- The open blocks in columns with a property end. -/
def closeBlocks (l : Layout) (ends : Nat → Bool) : Layout :=
  if l.inFlow then l
  else
    let closed := (l.indents.takeWhile ends).map fun _ => Token.blockEnd
    { l with indents := l.indents.dropWhile ends, tokens := l.tokens ++ closed }

/-- A block starts in a column, in front of the token at a position, if none is open there. -/
def openBlock (l : Layout) (column position : Nat) (t : Token) : Layout :=
  if !l.inFlow && l.indents.head?.all (· < column) then
    { l with indents := column :: l.indents, tokens := l.tokens.insertIdxIfInBounds position t }
  else l

/-- A marker of the start or the end of a document. -/
def documentMarker? (l : Layout) (t : Token) : Option Layout := do
  let l ← (l.closeBlocks fun _ => true).dropCandidate?
  some ((l.allowKey false).push t)

/-- An opening bracket or brace. The collection may be a name as a whole. -/
def openFlow? (l : Layout) (t : Token) : Option Layout := do
  let l ← l.addCandidate?
  some ({ l with candidate := none, outer := l.candidate :: l.outer, keyAllowed := true }.push t)

/-- A closing bracket or brace, also one that closes nothing. -/
def closeFlow? (l : Layout) (t : Token) : Option Layout := do
  let l ← l.dropCandidate?
  let l := match l.outer with
    | [] => l
    | around :: outer => { l with candidate := around, outer }
  some ((l.allowKey false).push t)

def comma? (l : Layout) : Option Layout := do
  let l ← l.dropCandidate?
  some ((l.allowKey true).push .comma)

/-- In a block, hyphens, question marks and colons without a candidate stand only where a name may
start. -/
def blockIndicator? (l : Layout) (block : Token) : Option Layout :=
  if l.inFlow then some l
  else if l.keyAllowed then some (l.openBlock l.place.column l.tokens.size block)
  else none

def dash? (l : Layout) : Option Layout := do
  let l ← (← l.blockIndicator? .blockSequence).dropCandidate?
  some ((l.allowKey true).push .dash)

def key? (l : Layout) : Option Layout := do
  let l ← (← l.blockIndicator? .blockMapping).dropCandidate?
  some ((l.allowKey !l.inFlow).push .key)

/-- A colon makes the candidate a name. Without one it is the value of a name that was marked. -/
def value? (l : Layout) : Option Layout :=
  match l.candidate with
  | some c =>
      let named := { l with candidate := none, tokens := l.tokens.insertIdxIfInBounds c.position .key }
      some (((named.openBlock c.place.column c.position .blockMapping).allowKey false).push .value)
  | none => do
      let l ← l.blockIndicator? .blockMapping
      some ((l.allowKey !l.inFlow).push .value)

def scalar? (l : Layout) (s : Scalar) (endsLine : Bool) : Option Layout := do
  let l ← l.addCandidate?
  some ((l.allowKey endsLine).push (.scalar s))

/-- The token at the start of a text that starts with neither white space nor a comment, and what
follows it. -/
def next? (l : Layout) (c : Char) (rest : List Char) : Option (Layout × List Char) :=
  let cs := c :: rest
  let atLineStart := l.place.column == 0
  let followedBy (rest : List Char) (l : Option Layout) := l.map fun l => (l, rest)
  if atLineStart && isMarker '-' cs then followedBy (cs.drop 3) (l.documentMarker? .documentStart)
  else if atLineStart && isMarker '.' cs then followedBy (cs.drop 3) (l.documentMarker? .documentEnd)
  else if c = '[' then followedBy rest (l.openFlow? .openBracket)
  else if c = '\x7b' then followedBy rest (l.openFlow? .openBrace)
  else if c = ']' then followedBy rest (l.closeFlow? .closeBracket)
  else if c = '\x7d' then followedBy rest (l.closeFlow? .closeBrace)
  else if c = ',' then followedBy rest l.comma?
  else if c = '-' && atSpace rest then followedBy rest l.dash?
  else if c = '?' && (l.inFlow || atSpace rest) then followedBy rest l.key?
  else if c = ':' && (l.inFlow || atSpace rest) then followedBy rest l.value?
  else if c = '\x27' then do
    let (text, after) ← singleQuoted? rest
    followedBy after (l.scalar? ⟨false, text⟩ false)
  else if c = '"' then do
    let (text, after) ← doubleQuoted? rest
    followedBy after (l.scalar? ⟨false, text⟩ false)
  else if startsPlain l.inFlow cs then do
    let plain ← plain? l.inFlow l.innerIndent cs
    followedBy plain.rest (l.scalar? ⟨true, plain.text⟩ plain.endsLine)
  else none

/-- White space and comments in front of a token: how many characters they take, and whether a name
may start behind them. Outside brackets a new line may start with a name; where a name may start no
tab stands, because it would take part in the indentation. A byte-order mark at the start of a line is
passed over. -/
def gap (inFlow : Bool) : (keyAllowed atLineStart inComment : Bool) → List Char → Nat × Bool
  | keyAllowed, _, _, [] => (0, keyAllowed)
  | keyAllowed, atLineStart, inComment, c :: rest =>
      let past (found : Nat × Bool) := (found.1 + 1, found.2)
      if isBreak c then past (gap inFlow (keyAllowed || !inFlow) true false rest)
      else if inComment || c = '#' then past (gap inFlow keyAllowed false true rest)
      else if c = ' ' || (c = '\t' && (inFlow || !keyAllowed)) ||
          (atLineStart && isByteOrderMark c) then
        past (gap inFlow keyAllowed false false rest)
      else (0, keyAllowed)

/-- The layout at the next token or at the end of the text. -/
def passGap? (l : Layout) (cs : List Char) : Option (Layout × List Char) := do
  let (count, keyAllowed) := gap l.inFlow l.keyAllowed (l.place.column == 0) false cs
  let l ← { l with place := l.place.after (cs.take count), keyAllowed }.dropLate?
  some (l.closeBlocks (l.place.column < ·), cs.drop count)

/-- The tokens of a whole text. Each step takes a token of at least one character, so the length of
the text is fuel enough. -/
def tokensFrom? : Nat → Layout → List Char → Option (List Token)
  | 0, _, _ => none
  | fuel + 1, l, cs =>
      match l.passGap? cs with
      | none => none
      | some (l, []) => (l.closeBlocks fun _ => true).dropCandidate?.map fun l => l.tokens.toList
      | some (l, c :: rest) =>
          match l.next? c rest with
          | none => none
          | some (next, after) =>
              let taken := (c :: rest).take (rest.length + 1 - after.length)
              tokensFrom? fuel { next with place := l.place.after taken } after

end Layout

/-- The tokens of a text. -/
def tokens? (text : String) : Option (List Token) :=
  let cs := withNewlines text.toList
  if text.toList.all isAllowed then Layout.start.tokensFrom? (cs.length + 1) cs else none

end RowRecipe.Settings.Document
