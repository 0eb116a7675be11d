import RowRecipe.Tree.Argument

/-!
Reading a whole recipe. Semicolons and newlines cut its lexemes into runs, and every run is one pragma
or one directive.
-/

namespace RowRecipe

/-- Lexemes between two terminators, at least one, and what ends them. -/
structure Run where
  lexemes : List Lexeme
  ending : Ending
deriving DecidableEq

namespace Run

/-- The runs of a list of lexemes, `current` being the start of the first one. -/
def split (endOffset : Nat) (current : List Lexeme) : List Lexeme → List Run
  | [] => if current.isEmpty then [] else [⟨current, ⟨endOffset, none⟩⟩]
  | l :: rest =>
      if l.kind.isTerminator then
        if current.isEmpty then split endOffset [] rest
        else ⟨current, ⟨l.start, some l.kind⟩⟩ :: split endOffset [] rest
      else split endOffset (current ++ [l]) rest

end Run

namespace Node

/-- A pragma that asks for directives: their names with commas between them. -/
def loadPragma (source : List Char) (ending : Ending) (start : Lexeme) (ls : List Lexeme) :
    Except GrammarFault (Node × List Lexeme) := do
  let (first, ls) ← ending.expect .loadableName .identifier ls
  let (more, ls) ← ending.items .identifier ls
  .ok (coverLexemes source .loadPragma start (first :: more)
    ((first :: more).map (leaf source .identifier)), ls)

/-- A pragma that declares a version: a number or a name. -/
def versionPragma (source : List Char) (ending : Ending) (start : Lexeme) (ls : List Lexeme) :
    Except GrammarFault (Node × List Lexeme) := do
  let ((rule, value), ls) ←
    ending.expectOneOf .version [(.number, .number), (.identifier, .identifier)] ls
  .ok (coverLexemes source .versionPragma start [value] [leaf source rule value], ls)

/-- A pragma after its first lexeme. Nothing may follow it in its run. -/
def pragma (source : List Char) (ending : Ending) (start : Lexeme) (ls : List Lexeme) :
    Except GrammarFault Node := do
  let (name, ls) ← ending.expect .pragmaName .identifier ls
  let (node, ls) ←
    if name.content = "load-directives" then loadPragma source ending start ls
    else if name.content = "version" then versionPragma source ending start ls
    else .error ⟨name.start, .unknownPragma name.content⟩
  if ls.isEmpty then .ok node else .error (ending.fault .terminator ls)

/-- The name of a directive: an identifier, or a mark and an identifier. -/
def command (source : List Char) (ending : Ending) :
    List Lexeme → Except GrammarFault (Node × List Lexeme)
  | l :: rest =>
      if l.kind = .identifier then .ok (leaf source .command l, rest)
      else if l.kind = .bang then do
        let (name, ls) ← ending.expect .customName .identifier rest
        .ok (coverLexemes source .customCommand l [name] [], ls)
      else .error (ending.fault .directiveName (l :: rest))
  | [] => .error (ending.fault .directiveName [])

/-- A directive: its name and its arguments. -/
def directive (source : List Char) (ending : Ending) (ls : List Lexeme) :
    Except GrammarFault Node := do
  let (name, ls) ← command source ending ls
  let arguments ← arguments source ending ls.length ls
  .ok (coverNodes source .directive (name :: arguments))

/-- The node of a run. -/
def ofRun (source : List Char) (run : Run) : Except GrammarFault Node :=
  match run.lexemes with
  | l :: rest =>
      if l.kind = .pragma then pragma source run.ending l rest
      else directive source run.ending run.lexemes
  | [] => directive source run.ending []

/-- The tree of a recipe, with faults at their offsets. -/
def ofSource (source : List Char) : Except GrammarFault Node :=
  match Lexeme.scan source 0 with
  | .error failure => .error ⟨failure.start, .lexical failure.issue⟩
  | .ok lexemes => do
      let stop := Text.byteLength source
      let children ← (Run.split stop [] lexemes).mapM (ofRun source)
      .ok (cover source .recipe 0 stop children)

/-- A fault at its line and column. -/
def placed (source : List Char) (fault : GrammarFault) : GrammarError :=
  let place := Position.ofOffset source fault.offset
  ⟨place.line, place.column, fault.issue⟩

/-- The tree of a recipe. -/
def parse (source : String) : Except GrammarError Node :=
  (ofSource source.toList).mapError (placed source.toList)

end Node

end RowRecipe
