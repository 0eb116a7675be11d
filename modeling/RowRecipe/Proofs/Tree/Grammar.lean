import RowRecipe.Tree.Recipe

/-!
The grammar of recipes, written down apart from how it is read: which lexemes are a sentence of
which rule, and the node that each sentence makes. Nothing here takes lexemes from the front, looks
ahead or counts fuel.
-/

namespace RowRecipe

/-- The maximal runs of lexemes without a terminator, the empty ones left out. -/
def Lexeme.runs (ls : List Lexeme) : List (List Lexeme) :=
  (ls.splitOnP fun l => l.kind.isTerminator).filter fun run => !run.isEmpty

namespace Grammar

open Node

/-- Which lexemes are a phrase, and the node that they make. -/
abbrev Phrase := List Lexeme → Node → Prop

/-- Phrases with a separator between each two of them. -/
inductive Separated (separator : List Lexeme → Prop) (phrase : Phrase) :
    List Lexeme → List Node → Prop
  | one {ls : List Lexeme} {node : Node} (hfirst : phrase ls node) :
      Separated separator phrase ls [node]
  | cons {ls between more : List Lexeme} {node : Node} {nodes : List Node}
      (hfirst : phrase ls node) (hbetween : separator between)
      (hmore : Separated separator phrase more nodes) :
      Separated separator phrase (ls ++ (between ++ more)) (node :: nodes)

def Comma (ls : List Lexeme) : Prop :=
  ∃ comma : Lexeme, ls = [comma] ∧ comma.kind = .comma

def Newlines (ls : List Lexeme) : Prop :=
  ∀ l ∈ ls, l.kind = .newline

/-- A comma that may have newlines around it. -/
def PaddedComma (ls : List Lexeme) : Prop :=
  ∃ (before : List Lexeme) (comma : Lexeme) (after : List Lexeme),
    ls = before ++ comma :: after ∧ Newlines before ∧ comma.kind = .comma ∧ Newlines after

/-- The kinds of lexemes that may be listed, with the rule of one item and the rule of a list. -/
def listRules : List (Lexeme.Kind × Rule × Rule) :=
  [(.column, .column, .columnList), (.string, .text, .textList), (.bool, .bool, .boolList),
   (.number, .number, .numberList)]

section Rules

variable (source : List Char)

/-- One lexeme of a kind. -/
def Single (kind : Lexeme.Kind) (rule : Rule) : Phrase := fun ls node =>
  ∃ l : Lexeme, ls = [l] ∧ l.kind = kind ∧ node = leaf source rule l

/-- A single item stands for itself, several of them for a list. -/
def itemsNode (listRule : Rule) : List Node → Node
  | [node] => node
  | nodes => coverNodes source listRule nodes

inductive Range : Phrase
  | intro {low colon high equals label : Lexeme} {rule : Rule} (hlow : low.kind = .number)
      (hcolon : colon.kind = .colon) (hhigh : high.kind = .number) (hequals : equals.kind = .equals)
      (hlabel : (label.kind, rule) ∈ [(.number, .number), (.string, .text)]) :
      Range [low, colon, high, equals, label]
        (coverNodes source .range
          [leaf source .number low, leaf source .number high, leaf source rule label])

inductive Property : Phrase
  | intro {key equals value : Lexeme} {keyRule valueRule : Rule}
      (hkey : (key.kind, keyRule) ∈ [(.identifier, .identifier), (.string, .text)])
      (hequals : equals.kind = .equals)
      (hvalue : (value.kind, valueRule) ∈
        [(.number, .number), (.bool, .bool), (.string, .text), (.identifier, .identifier)]) :
      Property [key, equals, value]
        (coverNodes source .property [leaf source keyRule key, leaf source valueRule value])

/-- The lexemes inside the braces of a property list. -/
inductive Properties : List Lexeme → List Node → Prop
  | none {ls : List Lexeme} (hblank : Newlines ls) : Properties ls []
  | some {before ls after : List Lexeme} {nodes : List Node} (hbefore : Newlines before)
      (hentries : Separated PaddedComma (Property source) ls nodes)
      (hafter : Newlines after ∨ PaddedComma after) :
      Properties (before ++ (ls ++ after)) nodes

inductive Argument : Phrase
  | list {kind : Lexeme.Kind} {itemRule listRule : Rule} {ls : List Lexeme} {nodes : List Node}
      (hkind : (kind, itemRule, listRule) ∈ listRules)
      (hitems : Separated Comma (Single source kind itemRule) ls nodes) :
      Argument ls (itemsNode source listRule nodes)
  | ranges {ls : List Lexeme} {nodes : List Node} (hranges : Separated Comma (Range source) ls nodes) :
      Argument ls (coverNodes source .rangeList nodes)
  | quantity {l : Lexeme} (hkind : l.kind = .unitLiteral) :
      Argument [l] (leaf source (unitRule l.text) l)
  | block {l : Lexeme} (hkind : l.kind = .block) : Argument [l] (leaf source .condition l)
  | name {l : Lexeme} (hkind : l.kind = .identifier) : Argument [l] (leaf source .identifier l)
  | expression {name colon block : Lexeme} (hname : name.kind = .identifier)
      (hword : name.content = "exp") (hcolon : colon.kind = .colon) (hblock : block.kind = .block) :
      Argument [name, colon, block] (coverLexemes source .condition name [block] [])
  | properties {name colon block : Lexeme} {inner : List Lexeme} {nodes : List Node}
      (hname : name.kind = .identifier) (hword : name.content = "prop")
      (hcolon : colon.kind = .colon) (hblock : block.kind = .block)
      (hinner : Lexeme.scan (block.text.drop 1).dropLast (block.start + 1) = .ok inner)
      (hentries : Properties source inner nodes) :
      Argument [name, colon, block] (coverLexemes source .propertyList name [block] nodes)

inductive Arguments : List Lexeme → List Node → Prop
  | nil : Arguments [] []
  | cons {ls more : List Lexeme} {node : Node} {nodes : List Node} (hfirst : Argument source ls node)
      (hmore : Arguments more nodes) : Arguments (ls ++ more) (node :: nodes)

/-- The name of a directive. -/
inductive Command : Phrase
  | name {l : Lexeme} (hkind : l.kind = .identifier) : Command [l] (leaf source .command l)
  | custom {bang name : Lexeme} (hbang : bang.kind = .bang) (hname : name.kind = .identifier) :
      Command [bang, name] (coverLexemes source .customCommand bang [name] [])

/-- The sentences of a recipe, each of which is a run of its own. -/
inductive Item : Phrase
  | loadables {start word : Lexeme} {names : List Lexeme} {nodes : List Node}
      (hstart : start.kind = .pragma) (hkind : word.kind = .identifier)
      (hword : word.content = "load-directives")
      (hnames : Separated Comma (Single source .identifier .identifier) names nodes) :
      Item (start :: word :: names) (coverLexemes source .loadPragma start names nodes)
  | version {start word value : Lexeme} {rule : Rule} (hstart : start.kind = .pragma)
      (hkind : word.kind = .identifier) (hword : word.content = "version")
      (hvalue : (value.kind, rule) ∈ [(.number, .number), (.identifier, .identifier)]) :
      Item [start, word, value]
        (coverLexemes source .versionPragma start [value] [leaf source rule value])
  | directive {ls more : List Lexeme} {name : Node} {arguments : List Node}
      (hname : Command source ls name) (harguments : Arguments source more arguments) :
      Item (ls ++ more) (coverNodes source .directive (name :: arguments))

end Rules

end Grammar

end RowRecipe
