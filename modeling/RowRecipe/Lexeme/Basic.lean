import RowRecipe.Text.Utf8

/-!
Lexemes: the pieces that a recipe's text falls into. A lexeme has a kind, the text it was found as
and the offset at which that text starts.
-/

namespace RowRecipe

namespace Lexeme

inductive Kind where
  | newline
  | pragma
  | semicolon
  | comma
  | colon
  | equals
  | bang
  | bool
  | column
  | string
  | number
  | unitLiteral
  | identifier
  | block
deriving DecidableEq

/-- The kind as messages call it. -/
def Kind.describe : Kind → String
  | .newline => "newline"
  | .pragma => "'#pragma'"
  | .semicolon => "';'"
  | .comma => "','"
  | .colon => "':'"
  | .equals => "'='"
  | .bang => "'!'"
  | .bool => "boolean"
  | .column => "column reference"
  | .string => "string"
  | .number => "number"
  | .unitLiteral => "unit literal"
  | .identifier => "identifier"
  | .block => "block"

/-- The kinds that end a directive or a pragma. -/
def Kind.isTerminator : Kind → Bool
  | .semicolon | .newline => true
  | _ => false

end Lexeme

structure Lexeme where
  kind : Lexeme.Kind
  text : List Char
  /-- The offset of the first character. -/
  start : Nat
deriving DecidableEq

namespace Lexeme

/-- The offset after the last character. -/
def stop (l : Lexeme) : Nat := l.start + Text.byteLength l.text

def content (l : Lexeme) : String := String.ofList l.text

/-- The same lexeme further along. -/
def shift (distance : Nat) (l : Lexeme) : Lexeme := { l with start := l.start + distance }

/-- Why no lexeme starts somewhere. -/
inductive Issue where
  | unterminatedBlock
  | unterminatedString
  | unexpectedCharacter (c : Char)
deriving DecidableEq

def Issue.message : Issue → String
  | .unterminatedBlock => "unterminated block"
  | .unterminatedString => "unterminated string literal"
  | .unexpectedCharacter c => s!"unexpected character '{c}'"

/-- What is wrong with a text that starts with this character and with no lexeme. -/
def Issue.ofChar (c : Char) : Issue :=
  if c = '{' then .unterminatedBlock
  else if c = '\x27' || c = '"' then .unterminatedString
  else .unexpectedCharacter c

/-- The first place at which no lexeme starts. -/
structure Failure where
  start : Nat
  issue : Issue
deriving DecidableEq

end Lexeme

end RowRecipe
