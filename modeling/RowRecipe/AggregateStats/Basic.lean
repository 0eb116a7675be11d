import RowRecipe.AggregateStats.Totals
import RowRecipe.Directive.Registry

/-!
The directive `aggregate-stats`. It adds up a column of byte sizes and a column of durations over all
batches of a run. Rows of all batches but the last go through with both columns of totals set to zero;
in place of the last batch comes one row with the totals.
-/

namespace RowRecipe

/-- Which columns are added up, where their totals go, and in which units. -/
structure AggregateStats where
  byteColumn : String
  timeColumn : String
  byteTotalColumn : String
  timeTotalColumn : String
  byteUnit : ByteUnit
  timeUnit : TimeUnit
deriving DecidableEq

namespace AggregateStats

/-- The name under which recipes use the directive. -/
def directiveName : String := "aggregate-stats"

def usage : Usage :=
  Usage.ofName directiveName
    |>.require "byte_column" .columnName
    |>.require "time_column" .columnName
    |>.require "byte_total_column" .columnName
    |>.require "time_total_column" .columnName
    |>.allow "byte_output_unit" .text
    |>.allow "time_output_unit" .text

/-- The state before any arguments are read: totals are in megabytes and seconds. -/
def start : AggregateStats := ⟨"", "", "", "", .mb, .seconds⟩

/-- Takes over the names of the four columns. -/
def withColumns (args : Arguments) (s : AggregateStats) : Except BindError AggregateStats := do
  let byteColumn ← args.column "byte_column"
  let timeColumn ← args.column "time_column"
  let byteTotalColumn ← args.column "byte_total_column"
  let timeTotalColumn ← args.column "time_total_column"
  .ok { s with byteColumn, timeColumn, byteTotalColumn, timeTotalColumn }

/-- The unit that an optional argument names; `standing` if there is no such argument. -/
def unitArgument {U : Type} (args : Arguments) (name : String) (standing : U)
    (read : String → Option U) (refusal : String → String) : Except DirectiveError U :=
  if args.contains name then
    match args.text name with
    | .error e => .error (.bind e)
    | .ok text =>
        match read text with
        | some u => .ok u
        | none => .error (.initialization directiveName (refusal text))
  else .ok standing

def byteUnitRefusal (text : String) : String :=
  s!"Invalid byte unit '{text}'. Valid units are: B, KB, MB, GB, TB, PB, EB, ZB, YB"

def timeUnitRefusal (text : String) : String :=
  s!"Invalid time unit '{text}'. Valid units are: ns, ms, s, m, h, d"

/-- Reads the arguments in turn. What was read before a fault is kept. -/
def prepare (args : Arguments) (s : AggregateStats) : Directive.Preparation AggregateStats :=
  match s.withColumns args with
  | .error e => ⟨.error (.bind e), s, []⟩
  | .ok s =>
      match unitArgument args "byte_output_unit" s.byteUnit
          (fun text => UnitFamily.named? text.toList) byteUnitRefusal with
      | .error e => ⟨.error e, s, []⟩
      | .ok byteUnit =>
          let s := { s with byteUnit }
          match unitArgument args "time_output_unit" s.timeUnit TimeUnit.ofAnyName?
              timeUnitRefusal with
          | .error e => ⟨.error e, s, []⟩
          | .ok timeUnit => ⟨.ok (), { s with timeUnit }, []⟩

/-- Adds the amount in a cell to a tally. An empty cell adds nothing. -/
def addCell {U : Type} [UnitFamily U] (column : String) (cell : Cell)
    (quantity : Except UnitError (Option (Quantity U))) (t : Tally) : Except DirectiveError Tally :=
  match quantity with
  | .error e =>
      .error (.execution directiveName column
        s!"Failed to parse {UnitFamily.kind U} value '{cell.display}': {e.message}")
  | .ok none => .ok t
  | .ok (some q) =>
      match t.add? q.count with
      | some t => .ok t
      | none => .error (.execution directiveName column "accumulated total overflowed")

/-- Adds both cells of a row, the byte size first. -/
def addRow (s : AggregateStats) (t : Totals) (row : Row) : Except DirectiveError Totals := do
  let size := row.value s.byteColumn
  let bytes ← addCell s.byteColumn size size.byteSize? t.bytes
  let duration := row.value s.timeColumn
  let time ← addCell s.timeColumn duration duration.timeDuration? t.time
  .ok ⟨bytes, time⟩

/-- A total in the unit it is asked for in, or zero if nothing was added. -/
def total {U : Type} [UnitFamily U] [DecidableEq U] (t : Tally) (unit : U) : Binary64 :=
  if 0 < t.count then UnitFamily.convert UnitFamily.base (Binary64.ofNat t.total) unit
  else Binary64.zero false

/-- Sets both columns of totals. -/
def setTotals (s : AggregateStats) (bytes time : Binary64) (row : Row) : Row :=
  (row.set s.byteTotalColumn (.float bytes)).set s.timeTotalColumn (.float time)

/-- The row that stands for all rows of a run. -/
def summary (s : AggregateStats) (t : Totals) : Row :=
  s.setTotals (total t.bytes s.byteUnit) (total t.time s.timeUnit) .empty

/-- Adds up a batch. A batch that fails leaves what was kept before it. -/
def execute (rows : List Row) (view : View) (s : AggregateStats) :
    Directive.Execution AggregateStats :=
  match rows.foldlM s.addRow (Totals.ofView view) with
  | .error e => ⟨.error e, s, [], []⟩
  | .ok totals =>
      if view.context.isFinal then ⟨.ok [s.summary totals], s, Totals.forget, []⟩
      else ⟨.ok (rows.map (s.setTotals (Binary64.zero false) (Binary64.zero false))), s, totals.keep, []⟩

end AggregateStats

/-- The directive that adds up sizes and durations. -/
def aggregateStats : Directive where
  State := AggregateStats
  start := AggregateStats.start
  usage := AggregateStats.usage
  prepare := AggregateStats.prepare
  execute := AggregateStats.execute
  destroy := fun _ => []

/-- The registry of the directives that every recipe can use. -/
def Registry.builtin : Registry := .ofList [(AggregateStats.directiveName, aggregateStats)]

end RowRecipe
