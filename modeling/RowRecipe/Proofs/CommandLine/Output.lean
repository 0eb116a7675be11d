import RowRecipe.Proofs.CommandLine.Agreement
import RowRecipe.Proofs.CommandLine.Lines
import RowRecipe.Proofs.CommandLine.Sessions
import RowRecipe.Proofs.Json.Printing
import RowRecipe.Proofs.Pipeline.Batches

/-!
What a run prints: all rows that come out of its pipeline, one on each line, or nothing. A line of
input that is no row is reported before anything is known of the recipe but its text.
-/

namespace RowRecipe.CommandLine

variable {here : Surroundings} {recipe input : String} {path : Option String} {given : Option Nat}

/-- What a file of settings sets. Without a file, or with nothing but white space in it, it is nothing. -/
inductive Sets (here : Surroundings) : Option String → Settings.Fields → Prop
  | noFile : Sets here none .none
  | blank {path text : String} (htext : here.files path = .ok text)
      (hblank : text.toList.all Text.isBlank) : Sets here (some path) .none
  | written {path text : String} {fields : Settings.Fields} (htext : here.files path = .ok text)
      (hsome : ¬ text.toList.all Text.isBlank) (hread : here.readFields text = .ok fields) :
      Sets here (some path) fields

/-- What is set makes settings that can be used: the environment is production and batches have a
thousand rows, unless it is set otherwise. -/
structure Makes (fields : Settings.Fields) (settings : Settings) : Prop where
  environment : settings.environment = fields.environment.getD .production
  batchSize : settings.batchSize = fields.batchSize.getD 1000
  grammarVersion : settings.grammarVersion = fields.grammarVersion
  positive : 0 < settings.batchSize
  version : ∀ v ∈ settings.grammarVersion, ¬ v.toList.all Text.isBlank

theorem parse_eq_ok {readFields : String → Except String Settings.Fields} {text : String}
    {settings : Settings} :
    Settings.parse readFields text = .ok settings ↔
      text.toList.all Text.isBlank ∧ settings = .ofFields .none ∨
        ¬ text.toList.all Text.isBlank ∧
          ∃ fields, readFields text = .ok fields ∧ settings = .ofFields fields := by
  have hblank : Text.isBlankText text = text.toList.all Text.isBlank := rfl
  rw [Settings.parse, hblank]
  split
  · rename_i h
    simp only [h, not_true_eq_false, false_and, or_false, true_and, Except.ok.injEq]
    exact eq_comm
  · rename_i h
    simp [h, Outcome.map_eq_ok, eq_comm (a := settings)]

theorem readSettings_some_eq_ok {file : String} {settings : Settings} :
    readSettings here (some file) = .ok settings ↔
      ∃ text, here.files file = .ok text ∧
        Settings.parse here.readFields text = .ok settings := by
  unfold readSettings
  rw [Outcome.bind_eq_ok]
  simp only [Outcome.mapError_eq_ok]

theorem readSettings_eq_ok {settings : Settings} :
    readSettings here path = .ok settings ↔
      ∃ fields, Sets here path fields ∧ settings = .ofFields fields := by
  cases path with
  | none =>
      constructor
      · rintro ⟨⟩
        exact ⟨.none, .noFile, rfl⟩
      · rintro ⟨fields, ⟨⟩, rfl⟩
        rfl
  | some file =>
      rw [readSettings_some_eq_ok]
      constructor
      · rintro ⟨text, htext, hparse⟩
        obtain ⟨hblank, rfl⟩ | ⟨hsome, fields, hread, rfl⟩ := parse_eq_ok.mp hparse
        · exact ⟨.none, .blank htext hblank, rfl⟩
        · exact ⟨fields, .written htext hsome hread, rfl⟩
      · rintro ⟨fields, hsets, rfl⟩
        cases hsets with
        | blank htext hblank => exact ⟨_, htext, parse_eq_ok.mpr (.inl ⟨hblank, rfl⟩)⟩
        | written htext hsome hread =>
            exact ⟨_, htext, parse_eq_ok.mpr (.inr ⟨hsome, fields, hread, rfl⟩)⟩

theorem problems_eq_nil {settings : Settings} :
    settings.problems = [] ↔ 0 < settings.batchSize ∧
      ∀ v ∈ settings.grammarVersion, ¬ v.toList.all Text.isBlank := by
  have hversion : settings.grammarVersion.any Text.isBlankText = true ↔
      ∃ v ∈ settings.grammarVersion, v.toList.all Text.isBlank := by
    cases settings.grammarVersion <;> simp [Text.isBlankText]
  rw [Settings.problems, List.append_eq_nil_iff, Nat.pos_iff_ne_zero]
  simp [hversion]

/-- Settings are loaded if they can be read and used. -/
theorem loadSettings_eq_ok {settings : Settings} :
    loadSettings here path = .ok settings ↔ ∃ fields, Sets here path fields ∧ Makes fields settings := by
  have hload : loadSettings here path = .ok settings ↔
      readSettings here path = .ok settings ∧ settings.problems = [] := by
    unfold loadSettings
    rw [Outcome.bind_eq_ok]
    constructor
    · rintro ⟨read, hread, husable⟩
      split at husable
      · rename_i hnone
        cases husable
        exact ⟨hread, hnone⟩
      · cases husable
    · rintro ⟨hread, hnone⟩
      exact ⟨settings, hread, by rw [hnone]⟩
  rw [hload, readSettings_eq_ok, problems_eq_nil]
  constructor
  · rintro ⟨⟨fields, hsets, rfl⟩, hpositive, hversion⟩
    exact ⟨fields, hsets, rfl, rfl, rfl, hpositive, hversion⟩
  · rintro ⟨fields, hsets, hmakes⟩
    refine ⟨⟨fields, hsets, ?_⟩, hmakes.positive, hmakes.version⟩
    obtain ⟨environment, batchSize, grammarVersion⟩ := settings
    rw [Settings.ofFields, Settings.mk.injEq]
    exact ⟨hmakes.environment, hmakes.batchSize, hmakes.grammarVersion⟩

theorem chooseBatchSize_eq_ok {settings : Settings} {size : Nat} :
    chooseBatchSize settings given = .ok size ↔
      given ≠ some 0 ∧ size = given.getD settings.batchSize := by
  match given with
  | none => simp [chooseBatchSize, eq_comm]
  | some 0 => simp [chooseBatchSize]
  | some (n + 1) => simp [chooseBatchSize, eq_comm]

/-- A job that was read has its parts from the files. -/
theorem Job.parts_of_read {job : Job} (h : Job.read here recipe input path given = .ok job) :
    loadSettings here path = .ok job.settings ∧
      chooseBatchSize job.settings given = .ok job.batchSize ∧
      here.files recipe = .ok job.source ∧
      ∃ text, here.files input = .ok text ∧ rowsOfText here text = .ok job.rows := by
  obtain ⟨settings, hsettings, h⟩ := Outcome.bind_eq_ok.mp h
  obtain ⟨size, hsize, h⟩ := Outcome.bind_eq_ok.mp h
  obtain ⟨source, hsource, h⟩ := Outcome.bind_eq_ok.mp h
  obtain ⟨text, htext, h⟩ := Outcome.bind_eq_ok.mp h
  obtain ⟨rows, hrows, h⟩ := Outcome.bind_eq_ok.mp h
  cases h
  exact ⟨hsettings, hsize, read_eq_ok.mp hsource, text, read_eq_ok.mp htext,
    Outcome.mapError_eq_ok.mp hrows⟩

theorem execute_eq_ok {command : Command} {texts : List String} :
    execute here command = .ok texts ↔ ∃ trace, perform here command = (.ok (), ⟨texts, trace⟩) := by
  unfold execute
  rcases perform here command with ⟨outcome, printed, trace⟩
  cases outcome with
  | error e => simp [Except.map]
  | ok _ => simp [Except.map, eq_comm]

/-- A run that fails has printed nothing. -/
theorem printed_eq_nil {failure : Failure} {record : Record}
    (h : perform here (.run recipe input path given) = (.error failure, record)) :
    record.printed = [] := by
  rw [perform_run] at h
  cases hjob : Job.read here recipe input path given with
  | error e =>
      rw [hjob] at h
      cases h
      rfl
  | ok job =>
      rcases hcompile : Pipeline.compile job.source .builtin job.settings with ⟨outcome, trace⟩
      simp only [hjob, hcompile] at h
      cases outcome with
      | error e =>
          cases h
          rfl
      | ok p =>
          cases hbatches : intoBatches? here.room job.batchSize job.rows with
          | none =>
              simp only [hbatches] at h
              cases h
              rfl
          | some batches =>
              rcases hrun : p.run batches with ⟨outcome, q, more⟩
              simp only [hbatches, hrun] at h
              cases outcome with
              | error e =>
                  cases h
                  rfl
              | ok out => cases h

/-- A run that succeeds has printed the rows that come out of the pipeline of its job. -/
theorem exists_job_of_execute {texts : List String}
    (h : execute here (.run recipe input path given) = .ok texts) :
    ∃ job batches p out, Job.read here recipe input path given = .ok job ∧
      (Pipeline.compile job.source .builtin job.settings).1 = .ok p ∧
      intoBatches? here.room job.batchSize job.rows = some batches ∧
      (p.run batches).1 = .ok out ∧
      texts = out.map fun row => row.json.compact := by
  obtain ⟨trace, hperform⟩ := execute_eq_ok.mp h
  rw [perform_run] at hperform
  cases hjob : Job.read here recipe input path given with
  | error e =>
      rw [hjob] at hperform
      cases hperform
  | ok job =>
      rcases hcompile : Pipeline.compile job.source .builtin job.settings with ⟨outcome, opening⟩
      simp only [hjob, hcompile] at hperform
      cases outcome with
      | error e => cases hperform
      | ok p =>
          cases hbatches : intoBatches? here.room job.batchSize job.rows with
          | none =>
              simp only [hbatches] at hperform
              cases hperform
          | some batches =>
              rcases hrun : p.run batches with ⟨outcome, q, more⟩
              simp only [hbatches, hrun] at hperform
              cases outcome with
              | error e => cases hperform
              | ok out =>
                  cases hperform
                  exact ⟨job, batches, p, out, rfl, congrArg Prod.fst hcompile, hbatches,
                    congrArg Prod.fst hrun, rfl⟩

/-- A run prints all or nothing, row by row. If it fails, nothing has been printed. If it succeeds,
the lines that are printed are the compact texts of the rows that the pipeline of the recipe gives
for the rows of the input, cut into batches of the size that was given with the command, or else of
the one that is set in the file of settings, or else of a thousand; none of them has a line break inside.
The rows of the input are its lines that are not blank; and the first of these that is no object makes the
run fail with its number, whatever the recipe is, once the settings and the size can be used and both
files can be read. -/
theorem run_output (here : Surroundings) (recipe input : String) (path : Option String)
    (given : Option Nat) :
    (∀ failure record,
      perform here (.run recipe input path given) = (.error failure, record) →
        joinLines record.printed = "") ∧
    (∀ texts, execute here (.run recipe input path given) = .ok texts →
      (∀ text ∈ texts, Text.NoControls text.toList) ∧
      Text.rows (joinLines texts).toList = texts.map String.toList ++ [[]] ∧
      ∃ fields settings size source text rows batches p out,
        Sets here path fields ∧ Makes fields settings ∧
        size = given.getD (fields.batchSize.getD 1000) ∧ 0 < size ∧
        here.files recipe = .ok source ∧ here.files input = .ok text ∧
        WritesRows here text rows ∧ Cuts size rows batches ∧
        (Pipeline.compile source .builtin settings).1 = .ok p ∧
        (p.run batches).1 = .ok out ∧
        texts = out.map fun row => row.json.compact) ∧
    ∀ fields settings source text number, Sets here path fields → Makes fields settings →
      given ≠ some 0 → here.files recipe = .ok source → here.files input = .ok text →
      FirstFault here text number →
      ∃ fault : LineFault, perform here (.run recipe input path given) =
          (.error (.line input number fault), .empty) ∧
        (Failure.line input number fault).message = s!"{input}:{number}: {fault.message}" := by
  refine ⟨?_, ?_, ?_⟩
  · intro failure record h
    rw [printed_eq_nil h]
    rfl
  · intro texts h
    obtain ⟨job, batches, p, out, hjob, hcompile, hbatches, hrun, rfl⟩ := exists_job_of_execute h
    obtain ⟨hsettings, hsize, hsource, text, htext, hrows⟩ := Job.parts_of_read hjob
    obtain ⟨fields, hsets, hmakes⟩ := loadSettings_eq_ok.mp hsettings
    obtain ⟨hgiven, hchosen⟩ := chooseBatchSize_eq_ok.mp hsize
    have hpositive : 0 < job.batchSize := by
      rw [hchosen]
      cases given with
      | none => exact hmakes.positive
      | some n => exact Nat.pos_of_ne_zero fun hzero => hgiven (congrArg some hzero)
    have hprinted : ∀ text ∈ out.map (fun row => row.json.compact), Text.NoControls text.toList :=
      List.forall_mem_map.mpr fun row _ => row.json.noControls_compact
    obtain ⟨-, rfl⟩ := intoBatches?_eq_some.mp hbatches
    have hsize : job.batchSize = given.getD (fields.batchSize.getD 1000) := by
      rw [hchosen, hmakes.batchSize]
    exact ⟨hprinted, rows_joinLines fun text htext => (hprinted text htext).newline_notMem,
      fields, job.settings, job.batchSize, job.source, text, job.rows, _, p, out, hsets, hmakes,
      hsize, hpositive, hsource, htext, rowsOfText_eq_ok hrows, cut_cuts hpositive job.rows, hcompile,
      hrun, rfl⟩
  · intro fields settings source text number hsets hmakes hgiven hsource htext hfirst
    have hsettings := loadSettings_eq_ok.mpr ⟨fields, hsets, hmakes⟩
    obtain ⟨fault, hrows⟩ := rowsOfText_eq_error hfirst
    have hjob := Job.read_eq_rows hsettings (chooseBatchSize_eq_ok.mpr ⟨hgiven, rfl⟩) hsource htext
    rw [hrows] at hjob
    refine ⟨fault, ?_, rfl⟩
    rw [perform_run, hjob]

theorem firstFault_sample : FirstFault sample "\n[1]\n" 2 := by
  have harray : Json.read "[1]" = .ok (.array [.number (.integer 1)]) := by cbv
  refine ⟨[[]], "[1]".toList, [], isLines_iff.mpr (by cbv), rfl,
    List.forall_mem_singleton.mpr (.inl rfl), by decide, ?_⟩
  intro members hwrites
  rw [WritesObject, String.ofList_toList] at hwrites
  cases harray.symm.trans hwrites

theorem sets_two : Sets sample (some "two.yaml") ⟨none, some 2, none⟩ := by
  have htext : sample.files "two.yaml" = .ok "batch_size: 2\n" := rfl
  refine .written htext (by decide) (Outcome.toOption_eq_some.mp ?_)
  decide +kernel

/-- The lines that a run prints for the rows of the sample in batches of two, and those for all rows in one
batch. -/
def linesOfTwo : List String :=
  ["\x7b\"a\":\"1 KB\",\"e\":\"x\\ny\",\"c\":0.0,\"d\":0.0\x7d",
    "\x7b\"b\":\"2 s\",\"c\":0.0,\"d\":0.0\x7d",
    "\x7b\"c\":0.0009765625,\"d\":3.0\x7d"]

def linesOfThree : List String := ["\x7b\"c\":0.0009765625,\"d\":3.0\x7d"]

/-- A run that fails prints nothing. The settings ask for batches of two, so a run prints two rows that
have passed and the summary; with a size of three given to it, it prints the summary alone. A line that is
no object is reported with its number, although the recipe cannot be used. -/
theorem run_output_columns :
    (∃ failure record,
      perform sample (.run "one.recipe" "rows.jsonl" none none) = (.error failure, record) ∧
        failure.message = lacksColumns ∧ joinLines record.printed = "") ∧
    (execute sample (.run "four.recipe" "rows.jsonl" (some "two.yaml") none) = .ok linesOfTwo ∧
      Text.rows (joinLines linesOfTwo).toList = linesOfTwo.map String.toList ++ [[]]) ∧
    (execute sample (.run "four.recipe" "rows.jsonl" (some "two.yaml") (some 3)) = .ok linesOfThree ∧
      Text.rows (joinLines linesOfThree).toList = linesOfThree.map String.toList ++ [[]]) ∧
    (told (perform sample (.run "one.recipe" "lines.jsonl" (some "two.yaml") none)) =
        (some "lines.jsonl:2: row must be a JSON object, got [1]", []) ∧
      ∃ fault, perform sample (.run "one.recipe" "lines.jsonl" (some "two.yaml") none) =
        (.error (.line "lines.jsonl" 2 fault), .empty)) := by
  refine ⟨?_, ?_, ?_, by decide +kernel, ?_⟩
  · have hlacks : told (perform sample (.run "one.recipe" "rows.jsonl" none none)) =
        (some lacksColumns, []) := by
      decide +kernel
    obtain ⟨failure, record, hfails, hmessage, -⟩ := exists_failure_of_told hlacks
    exact ⟨failure, record, hfails, hmessage, (run_output _ _ _ _ _).1 _ _ hfails⟩
  · have hsucceeds : execute sample (.run "four.recipe" "rows.jsonl" (some "two.yaml") none) =
        .ok linesOfTwo :=
      Outcome.toOption_eq_some.mp (by decide +kernel)
    obtain ⟨-, hlines, -⟩ := (run_output _ _ _ _ _).2.1 _ hsucceeds
    exact ⟨hsucceeds, hlines⟩
  · have hsucceeds : execute sample (.run "four.recipe" "rows.jsonl" (some "two.yaml") (some 3)) =
        .ok linesOfThree :=
      Outcome.toOption_eq_some.mp (by decide +kernel)
    obtain ⟨-, hlines, -⟩ := (run_output _ _ _ _ _).2.1 _ hsucceeds
    exact ⟨hsucceeds, hlines⟩
  · have htext : sample.files "lines.jsonl" = .ok "\n[1]\n" := rfl
    obtain ⟨fault, hfails, -⟩ := (run_output sample "one.recipe" "lines.jsonl" (some "two.yaml") none).2.2
      _ ⟨.production, 2, none⟩ _ _ _ sets_two ⟨rfl, rfl, rfl, by decide, nofun⟩ (by decide) rfl htext
      firstFault_sample
    exact ⟨fault, hfails⟩

end RowRecipe.CommandLine
