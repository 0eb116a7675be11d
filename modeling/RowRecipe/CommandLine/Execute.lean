import RowRecipe.CommandLine.Input
import RowRecipe.CommandLine.Session

/-!
Executing commands.
-/

namespace RowRecipe.CommandLine

namespace Session

/-- Opens the pipeline of a recipe, with the directives that every recipe can use, and goes on with
it. -/
def openPipeline {α : Type} (recipe source : String) (settings : Settings)
    (next : Pipeline → Session α) : Session α := do
  let (outcome, trace) := Pipeline.compile source .builtin settings
  note trace
  match outcome with
  | .error e => throw (.recipe recipe e)
  | .ok p => next p

/-- Has a pipeline execute a run of rows in batches, and closes it, whatever comes of the run, and also
if there is no room for the batches. -/
def runPipeline (room : Room) (size : Nat) (rows : List Row) (p : Pipeline) : Session (List Row) :=
  match intoBatches? room size rows with
  | none => do
      note p.close.2
      throw .noRoom
  | some batches => do
      let (outcome, p, trace) := p.run batches
      note trace
      note p.close.2
      settle .batch outcome

/-- Prints the compiled form of a recipe, over several lines. -/
def inspect (here : Surroundings) (recipe : String) : Session Unit := do
  let source ← read here recipe
  let table ← settle (fun e => .recipe recipe (.compile e)) (SymbolTable.compile source)
  print table.json.pretty

/-- Prints how many directives are ready, if all of them are. -/
def validate (here : Surroundings) (recipe : String) (settings : Option String) : Session Unit := do
  let settings ← loadSettings here settings
  let source ← read here recipe
  openPipeline recipe source settings fun p => do
    print s!"OK: {recipe} ({p.size} directive(s))"
    note p.close.2

/-- Prints the rows that come out of a run. -/
def printRun (here : Surroundings) (recipe input : String) (settings : Option String)
    (batchSize : Option Nat) : Session Unit := do
  let job ← Job.read here recipe input settings batchSize
  openPipeline recipe job.source job.settings fun p => do
    let rows ← runPipeline here.room job.batchSize job.rows p
    rows.forM fun row => print row.json.compact

/-- Prints the usages of the directives in a registry. -/
def usages (registry : Registry) : Session Unit :=
  registry.names.forM fun name =>
    match registry.usage? name with
    | some usage => print usage.line
    | none => pure ()

/-- The session of a command. -/
def ofCommand (here : Surroundings) : Command → Session Unit
  | .inspect recipe => inspect here recipe
  | .validate recipe settings => validate here recipe settings
  | .run recipe input settings batchSize => printRun here recipe input settings batchSize
  | .directives => usages .builtin

end Session

/-- How a command ends, and what it has done. -/
def perform (here : Surroundings) (command : Command) : Except Failure Unit × Record :=
  (Session.ofCommand here command).conduct .empty

/-- What a command that does not fail prints, text by text. -/
def execute (here : Surroundings) (command : Command) : Except Failure (List String) :=
  let (outcome, record) := perform here command
  outcome.map fun _ => record.printed

/-- Texts with a newline after each. -/
def joinLines (texts : List String) : String :=
  String.join (texts.map fun text => text ++ "\n")

end RowRecipe.CommandLine
