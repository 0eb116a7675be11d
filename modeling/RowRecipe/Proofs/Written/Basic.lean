import RowRecipe.Proofs.Lexeme.Shapes
import RowRecipe.SymbolTable.Basic

/-!
Recipes as they are written. Every part carries what makes it well-formed; its text is how it is
written, and its token is what it means. A recipe has one item on each line, and the parts of a
directive have one blank between them.
-/

namespace RowRecipe.Written

open Lexeme

/-- A name, which is none of the words for booleans. -/
structure Name where
  first : Char
  more : List Char
  starts : Pattern.startsName first = true
  continues : ∀ c ∈ more, Pattern.continuesName c = true
  notBool : ∀ b, Text.sameIgnoringCase (boolName b).toList (first :: more) = false

def Name.text (n : Name) : List Char := n.first :: n.more

def Name.content (n : Name) : String := String.ofList n.text

structure Column where
  first : Char
  more : List Char
  starts : Pattern.startsColumn first = true
  continues : ∀ c ∈ more, Pattern.continuesColumn c = true

def Column.text (c : Column) : List Char := ':' :: c.first :: c.more

def Column.name (c : Column) : String := String.ofList (c.first :: c.more)

/-- What may stand between two quotes. A backslash only comes with a character behind it, which is no
newline, and the quote itself only behind a backslash. -/
inductive Payload (quote : Char) : List Char → Prop
  | nil : Payload quote []
  | plain {c : Char} {rest : List Char} (hquote : c ≠ quote) (hbackslash : c ≠ '\\')
      (hrest : Payload quote rest) : Payload quote (c :: rest)
  | pair {c : Char} {rest : List Char} (hnewline : c ≠ '\n') (hrest : Payload quote rest) :
      Payload quote ('\\' :: c :: rest)

/-- A text in quotes. -/
structure Quoted where
  quote : Char
  payload : List Char
  isQuote : Block.isQuote quote = true
  protects : Payload quote payload

def Quoted.text (q : Quoted) : List Char := q.quote :: (q.payload ++ [q.quote])

def Quoted.content (q : Quoted) : String := String.ofList q.payload

structure Number where
  numeral : Numeral
  shape : IsNumber numeral.text.toList

def Number.text (n : Number) : List Char := n.numeral.text.toList

/-- A boolean in any case. -/
structure Boolean where
  value : Bool
  text : List Char
  spells : Text.sameIgnoringCase (boolName value).toList text = true

/-- A number and the symbol of a unit, which may be in any case. -/
structure Measure (U : Type) [UnitFamily U] where
  number : List Char
  suffix : List Char
  value : Binary64
  unit : U
  shape : IsDecimal number
  reads : Binary64.parse? number = some value
  spells : Text.sameIgnoringCase (UnitFamily.symbol unit).toList suffix = true

section Measures

variable {U : Type} [UnitFamily U]

def Measure.text (m : Measure U) : List Char := m.number ++ m.suffix

def Measure.quantity (m : Measure U) : Quantity U := ⟨String.ofList m.text, m.value, m.unit⟩

end Measures

/-- The parts with commas between them. -/
def separated (parts : List (List Char)) : List Char := List.intercalate [','] parts

theorem separated_singleton (part : List Char) : separated [part] = part := by
  simp [separated, List.intercalate]

theorem separated_cons (part second : List Char) (more : List (List Char)) :
    separated (part :: second :: more) = part ++ ([','] ++ separated (second :: more)) := by
  simp [separated, List.intercalate]

/-- The label of a range. It stays as it is written, so a number may have any value. -/
inductive Label where
  | number (text : List Char) (shape : IsNumber text)
  | quoted (q : Quoted)

namespace Label

def written : Label → List Char
  | .number text _ => text
  | .quoted q => q.text

def content : Label → String
  | .number text _ => String.ofList text
  | .quoted q => q.content

end Label

structure Range where
  low : Number
  high : Number
  label : Label

def Range.text (r : Range) : List Char :=
  r.low.text ++ ':' :: (r.high.text ++ '=' :: r.label.written)

def Range.meaning (r : Range) : NumericRange := ⟨r.low.numeral, r.high.numeral, r.label.content⟩

/-- The name of a property. -/
inductive Key where
  | name (n : Name)
  | quoted (q : Quoted)

namespace Key

def written : Key → List Char
  | .name n => n.text
  | .quoted q => q.text

def content : Key → String
  | .name n => n.content
  | .quoted q => q.content

end Key

/-- The value of a property. -/
inductive Value where
  | number (n : Number)
  | boolean (b : Boolean)
  | quoted (q : Quoted)
  | name (n : Name)

namespace Value

def written : Value → List Char
  | .number n => n.text
  | .boolean b => b.text
  | .quoted q => q.text
  | .name n => n.text

def token : Value → Token
  | .number n => .numeric n.numeral
  | .boolean b => .bool b.value
  | .quoted q => .text q.content
  | .name n => .text n.content

end Value

structure Property where
  key : Key
  value : Value

def Property.text (p : Property) : List Char := p.key.written ++ '=' :: p.value.written

def Property.entry (p : Property) : String × Token := (p.key.content, p.value.token)

/-- The body of an expression: the brace written behind it closes the one in front of it. -/
structure Body where
  text : List Char
  closes : Block.scan ⟨1, none⟩ (text ++ ['}']) = some (text.length + 1)

/-- An argument of a directive. A single column, text, boolean or number is one argument by itself,
and several with commas between them are a list. -/
inductive Argument where
  | columns (first : Column) (more : List Column)
  | texts (first : Quoted) (more : List Quoted)
  | booleans (first : Boolean) (more : List Boolean)
  | numbers (first : Number) (more : List Number)
  | ranges (first : Range) (more : List Range)
  | size (m : Measure ByteUnit)
  | duration (m : Measure TimeUnit)
  | name (n : Name)
  | properties (entries : List Property)
  /-- An expression, which may be marked as one. -/
  | expression (marked : Bool) (body : Body)

namespace Argument

def text : Argument → List Char
  | .columns first more => separated ((first :: more).map Column.text)
  | .texts first more => separated ((first :: more).map Quoted.text)
  | .booleans first more => separated ((first :: more).map Boolean.text)
  | .numbers first more => separated ((first :: more).map Number.text)
  | .ranges first more => separated ((first :: more).map Range.text)
  | .size m => m.text
  | .duration m => m.text
  | .name n => n.text
  | .properties entries =>
      "prop".toList ++ ':' :: '{' :: (separated (entries.map Property.text) ++ ['}'])
  | .expression true body => "exp".toList ++ ':' :: '{' :: (body.text ++ ['}'])
  | .expression false body => '{' :: (body.text ++ ['}'])

/-- The token of a single item, or that of a list. -/
def oneOrMany {α : Type} (one : α → Token) (many : List α → Token) : List α → Token
  | [x] => one x
  | xs => many xs

def token : Argument → Token
  | .columns first more =>
      oneOrMany .columnName .columnNameList ((first :: more).map Column.name)
  | .texts first more => oneOrMany .text .textList ((first :: more).map Quoted.content)
  | .booleans first more => oneOrMany .bool .boolList ((first :: more).map Boolean.value)
  | .numbers first more => oneOrMany .numeric .numericList ((first :: more).map Number.numeral)
  | .ranges first more => .ranges ((first :: more).map Range.meaning)
  | .size m => .byteSize m.quantity
  | .duration m => .timeDuration m.quantity
  | .name n => .identifier n.content
  | .properties entries => .properties (Entries.ofList (entries.map Property.entry))
  | .expression _ body => .expression (String.ofList (Text.trim body.text))

end Argument

/-- A directive, whose name may have the mark of a custom one in front of it. -/
structure Directive where
  custom : Bool
  name : Name
  arguments : List Argument

namespace Directive

def command (d : Directive) : List Char :=
  if d.custom then '!' :: d.name.text else d.name.text

def text (d : Directive) : List Char :=
  d.command ++ d.arguments.flatMap fun a => ' ' :: a.text

def tokens (d : Directive) : List Token :=
  .directiveName d.name.content :: d.arguments.map Argument.token

end Directive

/-- What a recipe declares as its version. It stays as it is written. -/
inductive Version where
  | number (text : List Char) (shape : IsNumber text)
  | name (n : Name)

def Version.written : Version → List Char
  | .number text _ => text
  | .name n => n.text

inductive Item where
  | loadables (first : Name) (more : List Name)
  | version (v : Version)
  | directive (d : Directive)

namespace Item

def text : Item → List Char
  | .loadables first more =>
      "#pragma load-directives ".toList ++ separated ((first :: more).map Name.text)
  | .version v => "#pragma version ".toList ++ v.written
  | .directive d => d.text

/-- The directives that the item asks for. -/
def requested : Item → List String
  | .loadables first more => (first :: more).map Name.content
  | _ => []

def version? : Item → Option String
  | .version v => some (String.ofList v.written)
  | _ => none

end Item

/-- The place of a text that has its lines for itself, after what stands on the lines before. -/
def place (before text : List Char) : Span where
  startLine := 1 + before.count '\n'
  startColumn := 0
  endLine := 1 + (before ++ text.dropLast).count '\n'
  endColumn := (text.dropLast.reverse.takeWhile (· != '\n')).length + 1
  source := String.ofList text

/-- The group of an item that is a directive. -/
def Item.groups (before : List Char) : Item → List TokenGroup
  | .directive d => [⟨d.tokens, place before d.text⟩]
  | _ => []

/-- The groups of items that stand on lines of their own. -/
def groups (before : List Char) : List Item → List TokenGroup
  | [] => []
  | item :: more => item.groups before ++ groups (before ++ item.text ++ ['\n']) more

/-- The last line may be ended by a newline or by the end of the text. -/
structure Recipe where
  items : List Item
  ended : Bool

namespace Recipe

def text (r : Recipe) : List Char :=
  List.intercalate ['\n'] (r.items.map Item.text) ++ if r.ended then ['\n'] else []

/-- What the recipe means: a group for each directive, the directives asked for in the order in which
they are first named, and the version declared last. -/
def table (r : Recipe) : SymbolTable where
  groups := groups [] r.items
  loadables := (r.items.flatMap Item.requested).eraseDups
  version := (r.items.filterMap Item.version?).getLast?

end Recipe

end RowRecipe.Written
