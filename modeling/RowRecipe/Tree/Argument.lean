import RowRecipe.Lexeme.Scan
import RowRecipe.Quantity.TimeDuration
import RowRecipe.Tree.Basic
import RowRecipe.Tree.Issue

/-!
Reading the arguments of a directive from lexemes. Readers work on the lexemes of one directive: they
take some from the front and give back a node and the lexemes that are left. What ends the lexemes is
known to them only for their error reports.
-/

namespace RowRecipe

/-- What stands after the last lexeme: an offset, and the lexeme there unless the text ends. -/
structure Ending where
  offset : Nat
  found : Option Lexeme.Kind
deriving DecidableEq

namespace Ending

/-- Something else was wanted at the front of the lexemes that are left. -/
def fault (ending : Ending) (wanted : Wanted) : List Lexeme → GrammarFault
  | l :: _ => ⟨l.start, .expected wanted (some l.kind)⟩
  | [] => ⟨ending.offset, .expected wanted ending.found⟩

/-- Takes a lexeme of a kind. -/
def expect (ending : Ending) (wanted : Wanted) (kind : Lexeme.Kind) :
    List Lexeme → Except GrammarFault (Lexeme × List Lexeme)
  | l :: rest =>
      if l.kind = kind then .ok (l, rest) else .error (ending.fault wanted (l :: rest))
  | [] => .error (ending.fault wanted [])

/-- Takes a lexeme of one of several kinds, with the rule that goes with its kind. -/
def expectOneOf (ending : Ending) (wanted : Wanted) (kinds : List (Lexeme.Kind × Rule)) :
    List Lexeme → Except GrammarFault ((Rule × Lexeme) × List Lexeme)
  | l :: rest =>
      match kinds.find? fun k => k.1 == l.kind with
      | some (_, rule) => .ok ((rule, l), rest)
      | none => .error (ending.fault wanted (l :: rest))
  | [] => .error (ending.fault wanted [])

/-- Takes the further items of a list: one after each comma. -/
def items (ending : Ending) (kind : Lexeme.Kind) :
    List Lexeme → Except GrammarFault (List Lexeme × List Lexeme)
  | [] => .ok ([], [])
  | comma :: rest =>
      if comma.kind = .comma then
        match rest with
        | [] => .error (ending.fault (.item kind) [])
        | l :: rest =>
            if l.kind = kind then
              (items ending kind rest).map fun (more, rest) => (l :: more, rest)
            else .error (ending.fault (.item kind) (l :: rest))
      else .ok ([], comma :: rest)

end Ending

namespace Node

/-- The node of a single lexeme. -/
def leaf (source : List Char) (rule : Rule) (l : Lexeme) : Node :=
  ⟨rule, l.content, Position.ofOffset source l.start, lastPlace source l.text l.start l.stop, []⟩

/-- The node over lexemes that follow one another, the first one given by itself. -/
def coverLexemes (source : List Char) (rule : Rule) (first : Lexeme) (more : List Lexeme)
    (children : List Node) : Node :=
  cover source rule first.start ((more.getLast?.getD first).stop) children

/-- A single item, or a list of items of the same kind. -/
def ofItems (source : List Char) (itemRule listRule : Rule) (first : Lexeme) :
    List Lexeme → Node
  | [] => leaf source itemRule first
  | more => coverLexemes source listRule first more ((first :: more).map (leaf source itemRule))

/-- One range: two bounds and a label. -/
def range (source : List Char) (ending : Ending) (ls : List Lexeme) :
    Except GrammarFault (Node × List Lexeme) := do
  let (low, ls) ← ending.expect .rangeLow .number ls
  let (_, ls) ← ending.expect .rangeColon .colon ls
  let (high, ls) ← ending.expect .rangeHigh .number ls
  let (_, ls) ← ending.expect .rangeEquals .equals ls
  let ((rule, label), ls) ←
    ending.expectOneOf .rangeValue [(.number, .number), (.string, .text)] ls
  .ok (coverLexemes source .range low [label]
    [leaf source .number low, leaf source .number high, leaf source rule label], ls)

/-- One or more ranges with commas between them. Every range takes lexemes, so their number is fuel
enough. -/
def ranges (source : List Char) (ending : Ending) :
    Nat → List Lexeme → Except GrammarFault (List Node × List Lexeme)
  | 0, ls => .error (ending.fault .rangeLow ls)
  | fuel + 1, ls => do
      let (first, ls) ← range source ending ls
      match ls with
      | comma :: rest =>
          if comma.kind = .comma then
            let (more, ls) ← ranges source ending fuel rest
            .ok (first :: more, ls)
          else .ok ([first], ls)
      | [] => .ok ([first], [])

/-- The node over nodes that follow one another. -/
def coverNodes (source : List Char) (rule : Rule) (nodes : List Node) : Node :=
  let start := (nodes.head?.map fun n => n.start.offset).getD 0
  let stop := (nodes.getLast?.map Node.endOffset).getD start
  cover source rule start stop nodes

def dropNewlines (ls : List Lexeme) : List Lexeme :=
  ls.dropWhile fun l => l.kind == .newline

/-- One property: a name, an equals sign and a value. -/
def property (source : List Char) (ending : Ending) (ls : List Lexeme) :
    Except GrammarFault (Node × List Lexeme) := do
  let ((keyRule, key), ls) ←
    ending.expectOneOf .propertyName [(.identifier, .identifier), (.string, .text)] ls
  let (_, ls) ← ending.expect .propertyEquals .equals ls
  let ((valueRule, value), ls) ← ending.expectOneOf .propertyValue
    [(.number, .number), (.bool, .bool), (.string, .text), (.identifier, .identifier)] ls
  .ok (coverLexemes source .property key [value]
    [leaf source keyRule key, leaf source valueRule value], ls)

/-- All properties of a block. Commas stand between them, and one may stand after the last; newlines
may stand around them. Every property takes lexemes, so their number is fuel enough. -/
def properties (source : List Char) (ending : Ending) :
    Nat → List Lexeme → Except GrammarFault (List Node)
  | fuel, ls =>
      match dropNewlines ls with
      | [] => .ok []
      | l :: rest =>
          match fuel with
          | 0 => .error (ending.fault .propertyName (l :: rest))
          | fuel + 1 => do
              let (first, ls) ← property source ending (l :: rest)
              match dropNewlines ls with
              | [] => .ok [first]
              | comma :: rest =>
                  if comma.kind = .comma then
                    (properties source ending fuel rest).map (first :: ·)
                  else .error (ending.fault .propertyComma (comma :: rest))

/-- The properties inside a block. The text between its braces falls into lexemes of its own. -/
def propertiesOf (source : List Char) (block : Lexeme) : Except GrammarFault (List Node) :=
  match Lexeme.scan (block.text.drop 1).dropLast (block.start + 1) with
  | .error failure => .error ⟨failure.start, .lexical failure.issue⟩
  | .ok ls => properties source ⟨block.stop - 1, none⟩ ls.length ls

/-- The suffix of a unit literal decides its rule: units of time make durations, all others sizes. -/
def unitRule (literal : List Char) : Rule :=
  let suffix := literal.dropWhile fun c => c.isDigit || c == '.'
  if (UnitFamily.named? suffix : Option TimeUnit).isSome then .timeDuration else .byteSize

/-- A name, or an argument that a name opens: `prop` and `exp` do if a colon and a block follow. -/
def named (source : List Char) (name : Lexeme) (ls : List Lexeme) :
    Except GrammarFault (Node × List Lexeme) :=
  match ls with
  | colon :: block :: rest =>
      if colon.kind = .colon ∧ block.kind = .block ∧ name.content = "prop" then do
        let entries ← propertiesOf source block
        .ok (coverLexemes source .propertyList name [block] entries, rest)
      else if colon.kind = .colon ∧ block.kind = .block ∧ name.content = "exp" then
        .ok (coverLexemes source .condition name [block] [], rest)
      else .ok (leaf source .identifier name, ls)
  | _ => .ok (leaf source .identifier name, ls)

/-- A number, a list of numbers, or ranges, which a colon after the first number tells apart. -/
def numeric (source : List Char) (ending : Ending) (number : Lexeme) (ls : List Lexeme) :
    Except GrammarFault (Node × List Lexeme) :=
  if ls.head?.any fun l => l.kind == .colon then do
    let (entries, ls) ← ranges source ending (ls.length + 1) (number :: ls)
    .ok (coverNodes source .rangeList entries, ls)
  else do
    let (more, ls) ← ending.items .number ls
    .ok (ofItems source .number .numberList number more, ls)

/-- One argument; its first lexeme is given by itself. -/
def argument (source : List Char) (ending : Ending) (first : Lexeme) (ls : List Lexeme) :
    Except GrammarFault (Node × List Lexeme) :=
  match first.kind with
  | .column => do
      let (more, ls) ← ending.items .column ls
      .ok (ofItems source .column .columnList first more, ls)
  | .string => do
      let (more, ls) ← ending.items .string ls
      .ok (ofItems source .text .textList first more, ls)
  | .bool => do
      let (more, ls) ← ending.items .bool ls
      .ok (ofItems source .bool .boolList first more, ls)
  | .number => numeric source ending first ls
  | .unitLiteral => .ok (leaf source (unitRule first.text) first, ls)
  | .block => .ok (leaf source .condition first, ls)
  | .identifier => named source first ls
  | _ => .error (ending.fault .argument (first :: ls))

/-- Arguments up to the end of the lexemes. Every argument takes lexemes, so their number is fuel
enough. -/
def arguments (source : List Char) (ending : Ending) :
    Nat → List Lexeme → Except GrammarFault (List Node)
  | _, [] => .ok []
  | 0, l :: rest => .error (ending.fault .argument (l :: rest))
  | fuel + 1, l :: rest => do
      let (first, ls) ← argument source ending l rest
      (arguments source ending fuel ls).map (first :: ·)

end Node

end RowRecipe
