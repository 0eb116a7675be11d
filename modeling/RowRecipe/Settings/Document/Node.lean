import RowRecipe.Settings.Document.Layout

/-!
The tree of a settings document: scalars, sequences and mappings, built from tokens. A text holds at
most one document.
-/

namespace RowRecipe.Settings.Document

inductive Node where
  | scalar (s : Scalar)
  | sequence (elements : List Node)
  | mapping (entries : List (Node × Node))

namespace Node

/-- Nothing at all, as a node. -/
def nothing : Node := .scalar .nothing

mutual

/-- The node at the start of the tokens. Blocks start only where they may, and the elements of a
sequence may stand as deep as the name that it is the value of. -/
def ofTokens? : (fuel : Nat) → (inBlock afterName : Bool) → List Token → Option (Node × List Token)
  | 0, _, _, _ => none
  | _, _, _, [] => none
  | fuel + 1, inBlock, afterName, t :: ts =>
      match t, inBlock, afterName with
      | .scalar s, _, _ => some (.scalar s, ts)
      | .openBracket, _, _ => (flowElements? fuel true ts).map fun (es, ts) => (.sequence es, ts)
      | .openBrace, _, _ => (flowEntries? fuel true ts).map fun (es, ts) => (.mapping es, ts)
      | .blockSequence, true, _ => (blockElements? fuel ts).map fun (es, ts) => (.sequence es, ts)
      | .blockMapping, true, _ => (blockEntries? fuel ts).map fun (es, ts) => (.mapping es, ts)
      | .dash, _, true => (flatElements? fuel (t :: ts)).map fun (es, ts) => (.sequence es, ts)
      | _, _, _ => none

/-- A node, or nothing in front of one of certain tokens. -/
def orNothing? : (fuel : Nat) → (inBlock afterName : Bool) → (stops : List Token) → List Token →
    Option (Node × List Token)
  | 0, _, _, _, _ => none
  | fuel + 1, inBlock, afterName, stops, ts =>
      if ts.head?.any (· ∈ stops) then some (nothing, ts) else ofTokens? fuel inBlock afterName ts

/-- The elements of a block sequence. -/
def blockElements? : (fuel : Nat) → List Token → Option (List Node × List Token)
  | fuel + 1, .dash :: ts => do
      let (element, ts) ← orNothing? fuel true false [.dash, .blockEnd] ts
      let (more, ts) ← blockElements? fuel ts
      some (element :: more, ts)
  | _, .blockEnd :: ts => some ([], ts)
  | _, _ => none

/-- The elements of a sequence that stands as deep as its name: it ends where no hyphen follows. -/
def flatElements? : (fuel : Nat) → List Token → Option (List Node × List Token)
  | fuel + 1, .dash :: ts => do
      let (element, ts) ← orNothing? fuel true false [.dash, .key, .value, .blockEnd] ts
      let (more, ts) ← flatElements? fuel ts
      some (element :: more, ts)
  | _, ts => some ([], ts)

/-- The entries of a block mapping. -/
def blockEntries? : (fuel : Nat) → List Token → Option (List (Node × Node) × List Token)
  | fuel + 1, .key :: ts => do
      let stops := [.key, .value, .blockEnd]
      let (name, ts) ← orNothing? fuel true true stops ts
      let (value, ts) ← match ts with
        | .value :: ts => orNothing? fuel true true stops ts
        | ts => some (nothing, ts)
      let (more, ts) ← blockEntries? fuel ts
      some ((name, value) :: more, ts)
  | _, .blockEnd :: ts => some ([], ts)
  | _, _ => none

/-- The rest of the entries in braces. All but the first follow a comma. A name without a mark has no
value. -/
def flowEntries? : (fuel : Nat) → (isFirst : Bool) → List Token →
    Option (List (Node × Node) × List Token)
  | _, _, .closeBrace :: ts => some ([], ts)
  | fuel + 1, false, .comma :: ts => flowEntries? fuel true ts
  | fuel + 1, true, .key :: ts => do
      let (name, ts) ← orNothing? fuel false false [.value, .comma, .closeBrace] ts
      let (value, ts) ← match ts with
        | .value :: ts => orNothing? fuel false false [.comma, .closeBrace] ts
        | ts => some (nothing, ts)
      let (more, ts) ← flowEntries? fuel false ts
      some ((name, value) :: more, ts)
  | fuel + 1, true, ts => do
      let (name, ts) ← ofTokens? fuel false false ts
      let (more, ts) ← flowEntries? fuel false ts
      some ((name, nothing) :: more, ts)
  | _, _, _ => none

/-- The rest of the elements in brackets. All but the first follow a comma. A name makes an element a
mapping of one entry. -/
def flowElements? : (fuel : Nat) → (isFirst : Bool) → List Token → Option (List Node × List Token)
  | _, _, .closeBracket :: ts => some ([], ts)
  | fuel + 1, false, .comma :: ts => flowElements? fuel true ts
  | fuel + 1, true, .key :: ts => do
      let (name, ts) ← pairName? fuel ts
      let (value, ts) ← match ts with
        | .value :: ts => orNothing? fuel false false [.comma, .closeBracket] ts
        | ts => some (nothing, ts)
      let (more, ts) ← flowElements? fuel false ts
      some (.mapping [(name, value)] :: more, ts)
  | fuel + 1, true, ts => do
      let (element, ts) ← ofTokens? fuel false false ts
      let (more, ts) ← flowElements? fuel false ts
      some (element :: more, ts)
  | _, _, _ => none

/-- The name of a pair in brackets. A token in the place of the name is passed over. -/
def pairName? : (fuel : Nat) → List Token → Option (Node × List Token)
  | 0, _ => none
  | fuel + 1, ts =>
      if ts.head?.any (· ∈ [Token.value, .comma, .closeBracket]) then some (nothing, ts.drop 1)
      else ofTokens? fuel false false ts

end

/-- The node that a document's tokens make after its start. A document whose start is marked may hold
nothing. -/
def ofBody? (marked : Bool) (ts : List Token) : Option (Node × List Token) :=
  if marked && ts.head?.all (· ∈ [Token.documentStart, .documentEnd]) then some (nothing, ts)
  else ofTokens? (4 * ts.length + 4) true false ts

end Node

/-- The root of the document in a text, if there is a document. Its end may be marked; no second
document follows it. -/
def root? (text : String) : Option (Option Node) := do
  match ← tokens? text with
  | [] => some none
  | ts =>
      let marked := ts.head? == some .documentStart
      let (node, after) ← Node.ofBody? marked (if marked then ts.drop 1 else ts)
      if after.all (· == .documentEnd) then some (some node) else none

end RowRecipe.Settings.Document
