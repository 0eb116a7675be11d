import RowRecipe.Directive.Registry
import RowRecipe.Directive.Stage
import RowRecipe.Pipeline.Error
import RowRecipe.SymbolTable.OfTree

/-!
Pipelines: recipes made ready for rows. Opening a pipeline prepares a stage for every directive of the
recipe, in order; the batches of a run then pass through all stages, each of which takes what the one
before it passes on. Operations report the events they bring about, each with the position of the
stage that it concerns.
-/

namespace RowRecipe

/-- Events in their order, with the positions of their stages. -/
abbrev Trace := List (Nat × Event)

/-- Events of the stage at a position. -/
def Trace.atStage (position : Nat) (events : List Event) : Trace := events.map (position, ·)

structure Pipeline where
  table : SymbolTable
  stages : List Stage
  context : Context

namespace Pipeline

/-- What can be told without looking at a group: versions that differ, and directives that are asked
for by name but not registered. -/
def check (table : SymbolTable) (registry : Registry) (settings : Settings) :
    Except RecipeError Unit :=
  let mismatch := match settings.grammarVersion, table.version with
    | some required, some declared =>
        if Text.trimmed required = declared then none
        else some (RecipeError.versionMismatch required declared)
    | _, _ => none
  match mismatch with
  | some e => .error e
  | none =>
      match table.loadables.find? fun name => !registry.contains name with
      | some name => .error (.unknownLoadable name)
      | none => .ok ()

/-- The stage of a group before it is prepared. -/
def stageOf (registry : Registry) (group : TokenGroup) : Except RecipeError Stage :=
  match group.directiveName? with
  | none => .error (.bind (.missingDirectiveName group.span))
  | some name =>
      match registry.get? name with
      | none => .error (.unknownDirective name group.span)
      | some directive => .ok (.ofDirective name group.span directive)

/-- Prepares a stage with the arguments in its group. -/
def prepareStage (group : TokenGroup) (stage : Stage) :
    Except RecipeError Unit × Stage × List Event :=
  match Arguments.bind stage.usage group with
  | .error e => (.error (.bind e), stage, [])
  | .ok args =>
      let (outcome, stage, events) := stage.prepare args
      (outcome.mapError .directive, stage, events)

/-- Closes stages in their order; the first one is at the given position. -/
def closeStages : Nat → List Stage → List Stage × Trace
  | _, [] => ([], [])
  | position, stage :: rest =>
      let (stage, events) := stage.close
      let (rest, more) := closeStages (position + 1) rest
      (stage :: rest, .atStage position events ++ more)

/-- Opens stages for groups, after some that are open already. If that fails, the stage that it failed
at is closed and then all the others are. -/
def openStages (registry : Registry) :
    List Stage → List TokenGroup → Except RecipeError (List Stage) × Trace
  | opened, [] => (.ok opened, [])
  | opened, group :: rest =>
      let position := opened.length
      match stageOf registry group with
      | .error e => (.error e, (closeStages 0 opened).2)
      | .ok stage =>
          let (outcome, stage, events) := prepareStage group stage
          let begun := Trace.atStage position (.created :: events)
          match outcome with
          | .error e => (.error e, begun ++ .atStage position stage.close.2 ++ (closeStages 0 opened).2)
          | .ok () =>
              let (outcome, more) := openStages registry (opened ++ [stage]) rest
              (outcome, begun ++ more)

/-- The pipeline of a symbol table. -/
def ofTable (table : SymbolTable) (registry : Registry) (settings : Settings) :
    Except RecipeError Pipeline × Trace :=
  match check table registry settings with
  | .error e => (.error e, [])
  | .ok () =>
      match openStages registry [] table.groups with
      | (.error e, trace) => (.error e, trace)
      | (.ok stages, trace) => (.ok ⟨table, stages, .fresh settings.environment⟩, trace)

/-- The pipeline of a recipe's text. -/
def compile (source : String) (registry : Registry) (settings : Settings) :
    Except RecipeError Pipeline × Trace :=
  match SymbolTable.compile source with
  | .error e => (.error (.compile e), [])
  | .ok table => ofTable table registry settings

def size (p : Pipeline) : Nat := p.stages.length

def isEmpty (p : Pipeline) : Bool := p.stages.isEmpty

/-- Passes rows through stages, the first of which is at the given position. A stage that fails is the
last one to work. -/
def passThrough : Nat → List Stage → List Row → Context →
    Except DirectiveError (List Row) × List Stage × Context × Trace
  | _, [], rows, context => (.ok rows, [], context, [])
  | position, stage :: rest, rows, context =>
      let (outcome, stage, context, events) := stage.execute position rows context
      match outcome with
      | .error e => (.error e, stage :: rest, context, .atStage position events)
      | .ok rows =>
          let (outcome, rest, context, more) := passThrough (position + 1) rest rows context
          (outcome, stage :: rest, context, .atStage position events ++ more)

/-- Executes one batch. What directives stored for the batch alone is forgotten after it, also when it
fails. -/
def executeBatch (rows : List Row) (isLast : Bool) (p : Pipeline) :
    Except DirectiveError (List Row) × Pipeline × Trace :=
  let (outcome, stages, context, trace) :=
    passThrough 0 p.stages rows (p.context.beginBatch isLast)
  (outcome, { p with stages, context := context.endBatch }, trace)

/-- Begins a run: nothing is left of the one before it except the states of the directives. -/
def beginRun (p : Pipeline) : Pipeline :=
  { p with context := .fresh p.context.environment }

/-- Executes batches, the last one of which is the last of the run, and joins the rows they give. -/
def executeAll : List (List Row) → Pipeline → Except DirectiveError (List Row) × Pipeline × Trace
  | [], p => (.ok [], p, [])
  | batch :: rest, p =>
      match p.executeBatch batch rest.isEmpty with
      | (.error e, p, trace) => (.error e, p, trace)
      | (.ok rows, p, trace) =>
          let (outcome, p, more) := executeAll rest p
          (outcome.map (rows ++ ·), p, trace ++ more)

/-- Executes a whole run. A run without batches executes an empty one. -/
def run (batches : List (List Row)) (p : Pipeline) :
    Except DirectiveError (List Row) × Pipeline × Trace :=
  p.beginRun.executeAll (if batches.isEmpty then [[]] else batches)

/-- Destroys all directives that are not destroyed yet. -/
def close (p : Pipeline) : Pipeline × Trace :=
  let (stages, trace) := closeStages 0 p.stages
  ({ p with stages }, trace)

end Pipeline

end RowRecipe
