import RowRecipe.Json.Basic
import RowRecipe.Binary64.Style

/-!
Writing JSON: on one line without blanks, or indented by two blanks a level.
-/

namespace RowRecipe.Json

/-- A character inside a string. Quotes, backslashes and control characters are escaped; everything
else stands for itself. -/
def escaped (c : Char) : List Char :=
  if c = '"' then ['\\', '"']
  else if c = '\\' then ['\\', '\\']
  else if c = '\n' then ['\\', 'n']
  else if c = '\r' then ['\\', 'r']
  else if c = '\t' then ['\\', 't']
  else if c.toNat = 8 then ['\\', 'b']
  else if c.toNat = 12 then ['\\', 'f']
  else if c.toNat < 32 then
    ['\\', 'u', '0', '0', Nat.digitChar (c.toNat / 16), Nat.digitChar (c.toNat % 16)]
  else [c]

def quoted (s : String) : List Char :=
  '"' :: (s.toList.flatMap escaped ++ ['"'])

def Number.text : Number → List Char
  | .integer i => (toString i).toList
  | .real x => Binary64.write Binary64.data x

def boolText (b : Bool) : List Char :=
  if b then ['t', 'r', 'u', 'e'] else ['f', 'a', 'l', 's', 'e']

mutual

/-- A value on one line, without blanks. -/
def chars : Json → List Char
  | .null => ['n', 'u', 'l', 'l']
  | .bool b => boolText b
  | .number n => n.text
  | .string s => quoted s
  | .array elements => '[' :: (elementChars elements ++ [']'])
  | .object members => '{' :: (memberChars members ++ ['}'])

def elementChars : List Json → List Char
  | [] => []
  | [value] => chars value
  | value :: rest => chars value ++ ',' :: elementChars rest

def memberChars : List (String × Json) → List Char
  | [] => []
  | [(name, value)] => quoted name ++ ':' :: chars value
  | (name, value) :: rest => quoted name ++ ':' :: (chars value ++ ',' :: memberChars rest)

end

/-- The value on one line. -/
def compact (json : Json) : String :=
  String.ofList (chars json)

/-- A line break and the blanks in front of the next line. -/
def lineStart (depth : Nat) : List Char :=
  '\n' :: List.replicate (2 * depth) ' '

mutual

/-- A value over several lines, its first line continuing the current one. -/
def prettyChars (depth : Nat) : Json → List Char
  | .null => ['n', 'u', 'l', 'l']
  | .bool b => boolText b
  | .number n => n.text
  | .string s => quoted s
  | .array [] => ['[', ']']
  | .object [] => ['{', '}']
  | .array elements => '[' :: (prettyElements (depth + 1) elements ++ lineStart depth ++ [']'])
  | .object members => '{' :: (prettyMembers (depth + 1) members ++ lineStart depth ++ ['}'])

def prettyElements (depth : Nat) : List Json → List Char
  | [] => []
  | [value] => lineStart depth ++ prettyChars depth value
  | value :: rest => lineStart depth ++ prettyChars depth value ++ ',' :: prettyElements depth rest

def prettyMembers (depth : Nat) : List (String × Json) → List Char
  | [] => []
  | [(name, value)] => lineStart depth ++ quoted name ++ ':' :: ' ' :: prettyChars depth value
  | (name, value) :: rest =>
      lineStart depth ++ quoted name ++ ':' :: ' ' ::
        (prettyChars depth value ++ ',' :: prettyMembers depth rest)

end

/-- The value over several lines, indented by two blanks a level. -/
def pretty (json : Json) : String :=
  String.ofList (prettyChars 0 json)

end RowRecipe.Json
