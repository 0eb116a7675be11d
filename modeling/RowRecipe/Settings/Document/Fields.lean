import RowRecipe.Settings.Basic
import RowRecipe.Settings.Document.Node

/-!
Reading settings from a document. This reader knows the notation for mappings and sequences with plain
and quoted scalars; it refuses documents with anchors, tags, directives or scalars written as a block.
Nothing but the program itself depends on it: commands are told which reader to use.
-/

namespace RowRecipe.Settings.Document

/-- A digit of a number in some base. -/
def digitIn? (radix : Nat) (c : Char) : Option Nat :=
  (Text.hexDigit? c).filter fun d => d < radix

/-- One or more digits of a base. -/
def inRadix? (radix : Nat) (cs : List Char) : Option Nat :=
  if cs.isEmpty then none
  else (cs.mapM (digitIn? radix)).map fun digits => digits.foldl (fun n d => radix * n + d) 0

/-- A whole number of 64 bits as documents write it: decimal without a zero in front, or in base 16, 8
or 2 after a mark; a plus sign may stand in front. -/
def count? (s : Scalar) : Option Nat :=
  let digits := match s.text with
    | '+' :: rest => rest
    | text => text
  let value := match digits with
    | '0' :: 'x' :: rest => inRadix? 16 rest
    | '0' :: 'o' :: rest => inRadix? 8 rest
    | '0' :: 'b' :: rest => inRadix? 2 rest
    | '0' :: _ :: _ => none
    | rest => Text.natural? rest
  if s.plain then value.filter fun n => n < 2 ^ 64 else none

/-- The value of a name, which may stand only once. -/
def entry? (name : String) (entries : List (Scalar × Node)) : Option (Option Node) :=
  match entries.filter fun e => e.1.text == name.toList with
  | [] => some none
  | [e] => some (some e.2)
  | _ => none

/-- What is set under a name, if the name stands there: what is read from its scalar. -/
def field? {α : Type} (name : String) (read : Scalar → Option α) (entries : List (Scalar × Node)) :
    Option (Option α) := do
  match ← entry? name entries with
  | none => some none
  | some (.scalar s) => (read s).map some
  | some _ => none

/-- The fields that the entries of a document set. Names of no field do not count. -/
def ofEntries? (entries : List (Scalar × Node)) : Option Fields := do
  let environment ← field? "environment" (fun s => Environment.named? s.text) entries
  let batchSize ← field? "batch_size" count? entries
  let grammarVersion ← field? "grammar_version"
    (fun s => some (if s.isNull then none else some (String.ofList s.text))) entries
  some ⟨environment, batchSize, grammarVersion.join⟩

/-- The fields that a document sets: a mapping whose names are scalars, or nothing. -/
def ofNode? : Node → Option Fields
  | .mapping entries => do
      let named ← entries.mapM fun
        | (.scalar name, value) => some (name, value)
        | _ => none
      ofEntries? named
  | .scalar s => if s == .nothing then some .none else none
  | .sequence _ => none

/-- The fields that the document in a text sets, if it has one. -/
def fields? (text : String) : Option Fields :=
  match root? text with
  | none => none
  | some none => some .none
  | some (some node) => ofNode? node

/-- The fields that a text sets; or that it is no document of settings. -/
def readFields (text : String) : Except String Fields :=
  match fields? text with
  | some fields => .ok fields
  | none => .error "no settings"

end RowRecipe.Settings.Document
