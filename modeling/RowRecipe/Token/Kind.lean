/-!
The kinds of tokens, and the names under which they appear in data and messages.
-/

namespace RowRecipe

inductive TokenKind where
  | identifier | directiveName | columnName | columnNameList | text | textList | numeric
  | numericList | bool | boolList | properties | ranges | expression | byteSize | timeDuration
deriving DecidableEq

namespace TokenKind

def all : List TokenKind :=
  [.identifier, .directiveName, .columnName, .columnNameList, .text, .textList, .numeric,
   .numericList, .bool, .boolList, .properties, .ranges, .expression, .byteSize, .timeDuration]

def name : TokenKind → String
  | .identifier => "IDENTIFIER"
  | .directiveName => "DIRECTIVE_NAME"
  | .columnName => "COLUMN_NAME"
  | .columnNameList => "COLUMN_NAME_LIST"
  | .text => "TEXT"
  | .textList => "TEXT_LIST"
  | .numeric => "NUMERIC"
  | .numericList => "NUMERIC_LIST"
  | .bool => "BOOLEAN"
  | .boolList => "BOOLEAN_LIST"
  | .properties => "PROPERTIES"
  | .ranges => "RANGES"
  | .expression => "EXPRESSION"
  | .byteSize => "BYTE_SIZE"
  | .timeDuration => "TIME_DURATION"

def named? (name : String) : Option TokenKind :=
  all.find? fun kind => kind.name == name

instance : ToString TokenKind := ⟨name⟩

end TokenKind

end RowRecipe
