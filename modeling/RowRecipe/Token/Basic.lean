import RowRecipe.Quantity.ByteSize
import RowRecipe.Quantity.TimeDuration
import RowRecipe.Token.Kind
import RowRecipe.Token.Numeral

/-!
Tokens: the typed values that a recipe's directives are made of. A token has a kind, a text close to
the one it was written as, and an equality by value.
-/

namespace RowRecipe

/-- A label for the numbers from one bound to another. -/
structure NumericRange where
  low : Numeral
  high : Numeral
  label : String

inductive Token where
  | identifier (name : String)
  | directiveName (name : String)
  /-- A column, without the colon in front of its name. -/
  | columnName (name : String)
  | columnNameList (names : List String)
  /-- Text, without its quotes. -/
  | text (content : String)
  | textList (contents : List String)
  | numeric (n : Numeral)
  | numericList (ns : List Numeral)
  | bool (b : Bool)
  | boolList (bs : List Bool)
  | properties (entries : List (String × Token))
  | ranges (rs : List NumericRange)
  /-- The body of an expression, which nothing here reads. -/
  | expression (body : String)
  | byteSize (size : ByteSize)
  | timeDuration (duration : TimeDuration)

namespace NumericRange

def text (r : NumericRange) : String :=
  s!"{r.low.text}:{r.high.text}={r.label}"

def same (a b : NumericRange) : Bool :=
  a.low.same b.low && a.high.same b.high && a.label == b.label

end NumericRange

/-- The two lists are equally long and agree place by place. -/
def sameLists {α : Type} (same : α → α → Bool) : List α → List α → Bool
  | [], [] => true
  | a :: as, b :: bs => same a b && sameLists same as bs
  | _, _ => false

def boolName (b : Bool) : String := if b then "true" else "false"

namespace Token

def kind : Token → TokenKind
  | .identifier _ => .identifier
  | .directiveName _ => .directiveName
  | .columnName _ => .columnName
  | .columnNameList _ => .columnNameList
  | .text _ => .text
  | .textList _ => .textList
  | .numeric _ => .numeric
  | .numericList _ => .numericList
  | .bool _ => .bool
  | .boolList _ => .boolList
  | .properties _ => .properties
  | .ranges _ => .ranges
  | .expression _ => .expression
  | .byteSize _ => .byteSize
  | .timeDuration _ => .timeDuration

mutual

/-- The token in one line of text: lists are joined by commas, and nothing is quoted. -/
def display : Token → String
  | .identifier s | .directiveName s | .columnName s | .text s | .expression s => s
  | .columnNameList names | .textList names => ",".intercalate names
  | .numeric n => n.text
  | .numericList ns => ",".intercalate (ns.map Numeral.text)
  | .bool b => boolName b
  | .boolList bs => ",".intercalate (bs.map boolName)
  | .properties entries => ",".intercalate (displayEntries entries)
  | .ranges rs => ",".intercalate (rs.map NumericRange.text)
  | .byteSize size => size.text
  | .timeDuration duration => duration.text

def displayEntries : List (String × Token) → List String
  | [] => []
  | (key, value) :: rest => s!"{key}={display value}" :: displayEntries rest

end

mutual

/-- Equality by value: numbers by what they denote, properties without regard to their order. -/
def same : Token → Token → Bool
  | .identifier a, .identifier b => a == b
  | .directiveName a, .directiveName b => a == b
  | .columnName a, .columnName b => a == b
  | .columnNameList a, .columnNameList b => a == b
  | .text a, .text b => a == b
  | .textList a, .textList b => a == b
  | .numeric a, .numeric b => a.same b
  | .numericList a, .numericList b => sameLists Numeral.same a b
  | .bool a, .bool b => a == b
  | .boolList a, .boolList b => a == b
  | .properties a, .properties b => a.length == b.length && sameEntries a b
  | .ranges a, .ranges b => sameLists NumericRange.same a b
  | .expression a, .expression b => a == b
  | .byteSize a, .byteSize b => a.same b
  | .timeDuration a, .timeDuration b => a.same b
  | _, _ => false

/-- Every entry has one of the same key and an equal value in the second list. -/
def sameEntries : List (String × Token) → List (String × Token) → Bool
  | [], _ => true
  | (key, value) :: rest, others =>
      (match Entries.get? key others with
        | some other => same value other
        | none => false) && sameEntries rest others

end

end Token

end RowRecipe
