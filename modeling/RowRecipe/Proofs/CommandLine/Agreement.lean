import RowRecipe.Json.Reader
import RowRecipe.Proofs.AggregateStats.Machine
import RowRecipe.Proofs.CommandLine.Sessions
import RowRecipe.Proofs.Pipeline.Batches
import RowRecipe.Proofs.Pipeline.Failing
import RowRecipe.Settings.Document.Fields

/-!
Validating and running agree. What is wrong with settings or with a recipe is found out before any
rows are passed through the pipeline, by both commands and in the same order, so a recipe that is
valid can only fail on its rows. One thing validation does not look at is whether there is room for the
batches.
-/

namespace RowRecipe.CommandLine

variable {here : Surroundings} {recipe input : String} {path : Option String}

/-- If the input is made of rows, reading a job fails only where reading settings or recipe does. -/
theorem Job.read_of_rows {text : String} {rows : List Row} (htext : here.files input = .ok text)
    (hrows : rowsOfText here text = .ok rows) :
    Job.read here recipe input path none =
      match loadSettings here path, CommandLine.read here recipe with
      | .error e, _ => .error e
      | .ok _, .error e => .error e
      | .ok settings, .ok source => .ok ⟨settings, settings.batchSize, source, rows⟩ := by
  cases hsettings : loadSettings here path with
  | error e =>
      rw [Job.read, hsettings]
      rfl
  | ok settings =>
      cases hsource : CommandLine.read here recipe with
      | error e =>
          rw [Job.read, hsettings, hsource]
          rfl
      | ok source => rw [Job.read_eq_rows hsettings rfl (read_eq_ok.mp hsource) htext, hrows]

/-- Validating a recipe and running it on rows agree. If validation fails, so does the run, with the
same failure, and it executes no directive. If the recipe is valid, then all that a run of it can fail
with is a directive that cannot process its rows, provided that there is room for batches of the size
that the settings have; a run without that room breaks off before it executes a directive. -/
theorem run_agrees_with_validate {text : String} {rows : List Row}
    (htext : here.files input = .ok text) (hrows : rowsOfText here text = .ok rows) :
    (∀ failure record,
      perform here (.validate recipe path) = (.error failure, record) →
        perform here (.run recipe input path none) = (.error failure, record) ∧
          record.trace.executions = []) ∧
    ∀ record, perform here (.validate recipe path) = (.ok (), record) →
      ∃ settings, loadSettings here path = .ok settings ∧
        (here.room.holds settings.batchSize = true →
          (perform here (.run recipe input path none)).1 = .ok () ∨
            ∃ directive column message, (perform here (.run recipe input path none)).1 =
              .error (.batch (.execution directive column message))) ∧
        (here.room.holds settings.batchSize = false →
          (perform here (.run recipe input path none)).1 = .error .noRoom ∧
            (perform here (.run recipe input path none)).2.trace.executions = []) := by
  rw [perform_validate, perform_run, Job.read_of_rows htext hrows]
  cases loadSettings here path with
  | error e =>
      constructor
      · rintro failure record ⟨⟩
        exact ⟨rfl, rfl⟩
      · rintro record ⟨⟩
  | ok settings =>
      cases read here recipe with
      | error e =>
          constructor
          · rintro failure record ⟨⟩
            exact ⟨rfl, rfl⟩
          · rintro record ⟨⟩
      | ok source =>
          have hnothing := Pipeline.executions_compile source .builtin settings
          rcases hcompile : Pipeline.compile source .builtin settings with ⟨outcome, trace⟩
          rw [hcompile] at hnothing
          simp only [hcompile]
          cases outcome with
          | error e =>
              constructor
              · rintro failure record ⟨⟩
                exact ⟨rfl, hnothing⟩
              · rintro record ⟨⟩
          | ok p =>
              refine ⟨by rintro failure record ⟨⟩, ?_⟩
              rintro record -
              refine ⟨settings, rfl, fun hroom => ?_, fun hroom => ?_⟩
              · have hbatches : intoBatches? here.room settings.batchSize rows = _ :=
                  intoBatches?_eq_some.mpr ⟨hroom, rfl⟩
                simp only [hbatches]
                rcases hrun : p.run (cut settings.batchSize rows) with ⟨outcome, q, more⟩
                cases outcome with
                | ok out => exact .inl rfl
                | error e =>
                    obtain ⟨directive, column, message, rfl⟩ := Pipeline.run_failsExecuting
                      (congrArg Prod.fst hcompile) (congrArg Prod.fst hrun)
                    exact .inr ⟨directive, column, message, rfl⟩
              · have hnone : intoBatches? here.room settings.batchSize rows = none :=
                  intoBatches?_eq_none.mpr hroom
                refine ⟨by simp only [hnone], ?_⟩
                simp only [hnone]
                rw [Trace.executions_append, hnothing, Pipeline.close,
                  Pipeline.executions_closeStages, List.append_nil]

/-- Three rows, with a blank line among them. A column holds a line break, which is written as an escape. -/
def sampleRows : String :=
  "\x7b\"a\":\"1 KB\",\"e\":\"x\\ny\"\x7d\r\n \n\x7b\"b\":\"2 s\"\x7d\n\x7b\"b\":\"1 s\"\x7d"

/-- Recipes with four columns and with one, rows, something that is no row on the second line of a file,
and settings with a small size of batches and with the largest one. -/
def sampleFiles : Files := fun path =>
  if path = "four.recipe" then .ok "aggregate-stats :a :b :c :d"
  else if path = "one.recipe" then .ok "aggregate-stats :a"
  else if path = "rows.jsonl" then .ok sampleRows
  else if path = "lines.jsonl" then .ok "\n[1]\n"
  else if path = "two.yaml" then .ok "batch_size: 2\n"
  else if path = "large.yaml" then .ok "batch_size: 18446744073709551615\n"
  else .error .missing

def sample : Surroundings where
  files := sampleFiles
  readJson := Json.read
  readFields := Settings.Document.readFields
  room := .ofAddresses

/-- The message of a command that fails, and the texts that it has printed. -/
def told : Except Failure Unit × Record → Option String × List String
  | (.error failure, record) => (some failure.message, record.printed)
  | (.ok (), record) => (none, record.printed)

section Told

variable {performed : Except Failure Unit × Record} {printed : List String}

theorem exists_failure_of_told {message : String} (h : told performed = (some message, printed)) :
    ∃ failure record, performed = (.error failure, record) ∧ failure.message = message ∧
      record.printed = printed := by
  rcases performed with ⟨failure | _, record⟩ <;> cases h
  exact ⟨failure, record, rfl, rfl, rfl⟩

theorem exists_record_of_told (h : told performed = (none, printed)) :
    ∃ record, performed = (.ok (), record) ∧ record.printed = printed := by
  rcases performed with ⟨failure | _, record⟩ <;> cases h
  exact ⟨record, rfl, rfl⟩

end Told

theorem rowsOfText_sample : ∃ rows, rowsOfText sample sampleRows = .ok rows := by
  have hsome : (rowsOfText sample sampleRows).toOption.isSome = true := by decide +kernel
  obtain ⟨rows, hrows⟩ := Option.isSome_iff_exists.mp hsome
  exact ⟨rows, Outcome.toOption_eq_some.mp hrows⟩

theorem loadSettings_two :
    loadSettings sample (some "two.yaml") = .ok ⟨.production, 2, none⟩ := by
  apply Outcome.toOption_eq_some.mp
  decide +kernel

/-- What both commands say about the recipe that lacks columns. -/
def lacksColumns : String :=
  "one.recipe: directive 'aggregate-stats' is missing required argument 'time_column' " ++
    "(COLUMN_NAME); usage: aggregate-stats :byte_column :time_column :byte_total_column " ++
    ":time_total_column ['byte_output_unit'] ['time_output_unit']"

/-- A recipe that lacks columns is refused by both commands; one that has them is valid, and it runs on
the rows. -/
theorem run_agrees_with_validate_columns :
    ∃ text rows, sample.files "rows.jsonl" = .ok text ∧ rowsOfText sample text = .ok rows ∧
      (∃ failure record,
        perform sample (.validate "one.recipe" none) = (.error failure, record) ∧
        failure.message = lacksColumns ∧
        perform sample (.run "one.recipe" "rows.jsonl" none none) = (.error failure, record)) ∧
      ∃ record settings,
        perform sample (.validate "four.recipe" (some "two.yaml")) = (.ok (), record) ∧
        record.printed = ["OK: four.recipe (1 directive(s))"] ∧
        loadSettings sample (some "two.yaml") = .ok settings ∧
        sample.room.holds settings.batchSize = true ∧
        ((perform sample (.run "four.recipe" "rows.jsonl" (some "two.yaml") none)).1 = .ok () ∨
          ∃ directive column message,
            (perform sample (.run "four.recipe" "rows.jsonl" (some "two.yaml") none)).1 =
              .error (.batch (.execution directive column message))) := by
  obtain ⟨rows, hrows⟩ := rowsOfText_sample
  have htext : sample.files "rows.jsonl" = .ok sampleRows := rfl
  have hlacks : told (perform sample (.validate "one.recipe" none)) = (some lacksColumns, []) := by
    decide +kernel
  have hfour : told (perform sample (.validate "four.recipe" (some "two.yaml"))) =
      (none, ["OK: four.recipe (1 directive(s))"]) := by
    decide +kernel
  obtain ⟨failure, record, hfails, hmessage, -⟩ := exists_failure_of_told hlacks
  obtain ⟨record', hvalid, hprinted⟩ := exists_record_of_told hfour
  have hroom : sample.room.holds 2 = true := by decide
  obtain ⟨settings, hsettings, hroomy, -⟩ := (run_agrees_with_validate htext hrows).2 _ hvalid
  rw [loadSettings_two] at hsettings
  obtain rfl := Except.ok.inj hsettings
  exact ⟨_, rows, htext, hrows,
    ⟨failure, record, hfails, hmessage, ((run_agrees_with_validate htext hrows).1 _ _ hfails).1⟩,
    record', _, hvalid, hprinted, loadSettings_two, hroom, hroomy hroom⟩

/-- Whether a command broke off for lack of room. -/
def lacksRoom : Except Failure Unit → Bool
  | .error .noRoom => true
  | _ => false

theorem eq_noRoom_of_lacksRoom {outcome : Except Failure Unit} (h : lacksRoom outcome = true) :
    outcome = .error .noRoom := by
  unfold lacksRoom at h
  split at h
  · rfl
  · cases h

/-- With the largest size in the settings, a recipe is valid and a run of it breaks off. -/
theorem run_noRoom_of_valid :
    (∃ rows, rowsOfText sample sampleRows = .ok rows) ∧
      sample.files "rows.jsonl" = .ok sampleRows ∧
      (perform sample (.validate "four.recipe" (some "large.yaml"))).1 = .ok () ∧
      (perform sample (.run "four.recipe" "rows.jsonl" (some "large.yaml") none)).1 =
        .error .noRoom :=
  ⟨rowsOfText_sample, rfl, Outcome.toOption_eq_some.mp (by decide +kernel),
    eq_noRoom_of_lacksRoom (by decide +kernel)⟩

end RowRecipe.CommandLine
