import RowRecipe.CommandLine.Execute
import RowRecipe.Proofs.Outcome

/-!
What the sessions of commands do. One session after another goes on with what the first has done, and
a session that fails is the last one; from this the two commands that open pipelines are each told as
one case analysis, with all that they print and all that happens to directives.
-/

namespace RowRecipe.CommandLine

namespace Session

variable {α β : Type}

theorem conduct_bind (r : Record) (s : Session α) (next : α → Session β) :
    (s >>= next).conduct r =
      match s.conduct r with
      | (.ok a, r) => (next a).conduct r
      | (.error e, r) => (.error e, r) := by
  rcases hs : s.conduct r with ⟨outcome, r'⟩
  have hrun : s.run.run r = (outcome, r') := hs
  change ((s >>= next).run.run r).run = _
  rw [ExceptT.run_bind, StateT.run_bind, hrun]
  cases outcome <;> rfl

@[simp] theorem conduct_pure (r : Record) (a : α) : (pure a : Session α).conduct r = (.ok a, r) := rfl

@[simp] theorem conduct_throw (r : Record) (e : Failure) :
    (throw e : Session α).conduct r = (.error e, r) := rfl

@[simp] theorem conduct_print (r : Record) (text : String) :
    (print text).conduct r = (.ok (), r.print text) := rfl

@[simp] theorem conduct_note (r : Record) (trace : Trace) :
    (note trace).conduct r = (.ok (), r.note trace) := rfl

@[simp] theorem conduct_settle {ε : Type} (r : Record) (failure : ε → Failure)
    (outcome : Except ε α) :
    (settle failure outcome).conduct r = (outcome.mapError failure, r) := rfl

@[simp] theorem conduct_lift (r : Record) (outcome : Except Failure α) :
    (liftM outcome : Session α).conduct r = (outcome, r) := rfl

/-- Opening a pipeline leaves what happened to its directives on record, also when it fails. -/
theorem conduct_openPipeline (recipe source : String) (settings : Settings)
    (next : Pipeline → Session α) (r : Record) :
    (openPipeline recipe source settings next).conduct r =
      match Pipeline.compile source .builtin settings with
      | (.error e, trace) => (.error (.recipe recipe e), r.note trace)
      | (.ok p, trace) => (next p).conduct (r.note trace) := by
  unfold openPipeline
  rcases Pipeline.compile source .builtin settings with ⟨outcome, trace⟩
  rw [conduct_bind, conduct_note]
  cases outcome <;> rfl

/-- A pipeline is closed after its run, whatever comes of the run, or instead of it. -/
theorem conduct_runPipeline (room : Room) (size : Nat) (rows : List Row) (p : Pipeline) (r : Record) :
    (runPipeline room size rows p).conduct r =
      match intoBatches? room size rows with
      | none => (.error .noRoom, r.note p.close.2)
      | some batches => ((p.run batches).1.mapError .batch,
          (r.note (p.run batches).2.2).note (p.run batches).2.1.close.2) := by
  unfold runPipeline
  cases intoBatches? room size rows with
  | none => simp only [conduct_bind, conduct_note, conduct_throw]
  | some batches =>
      rcases p.run batches with ⟨outcome, q, trace⟩
      simp only [conduct_bind, conduct_note, conduct_settle]

/-- Printing text after text does not fail. -/
theorem conduct_forM_print (texts : List α) (text : α → String) (r : Record) :
    (texts.forM fun t => print (text t)).conduct r =
      (.ok (), { r with printed := r.printed ++ texts.map text }) := by
  induction texts generalizing r with
  | nil => simp
  | cons t rest ih =>
      rw [List.forM_eq_forM, List.forM_cons, conduct_bind, conduct_print]
      rw [List.forM_eq_forM] at ih
      simp only [ih, Record.print, List.map_cons, List.append_assoc, List.singleton_append]

end Session

theorem read_eq_ok {here : Surroundings} {path text : String} :
    read here path = .ok text ↔ here.files path = .ok text :=
  Outcome.mapError_eq_ok

/-- Once everything else is there, a job is read if the input is made of rows. -/
theorem Job.read_eq_rows {here : Surroundings} {recipe input source text : String}
    {path : Option String} {given : Option Nat} {settings : Settings} {size : Nat}
    (hsettings : loadSettings here path = .ok settings)
    (hsize : chooseBatchSize settings given = .ok size)
    (hsource : here.files recipe = .ok source) (htext : here.files input = .ok text) :
    Job.read here recipe input path given =
      match rowsOfText here text with
      | .error (number, fault) => .error (.line input number fault)
      | .ok rows => .ok ⟨settings, size, source, rows⟩ := by
  simp only [Job.read, hsettings, hsize, read_eq_ok.mpr hsource, read_eq_ok.mpr htext, bind,
    Except.bind]
  cases rowsOfText here text <;> rfl

open Session

variable (here : Surroundings) (recipe input : String) (settings : Option String)

/-- A recipe is valid if the settings can be used, the recipe can be read, and a pipeline of it can be
opened. -/
theorem perform_validate :
    perform here (.validate recipe settings) =
      match loadSettings here settings, read here recipe with
      | .error e, _ => (.error e, .empty)
      | .ok _, .error e => (.error e, .empty)
      | .ok settings, .ok source =>
          match Pipeline.compile source .builtin settings with
          | (.error e, trace) => (.error (.recipe recipe e), ⟨[], trace⟩)
          | (.ok p, trace) =>
              (.ok (), ⟨[s!"OK: {recipe} ({p.size} directive(s))"], trace ++ p.close.2⟩) := by
  unfold perform ofCommand validate
  rw [conduct_bind, conduct_lift]
  cases loadSettings here settings with
  | error e => rfl
  | ok settings =>
      simp only
      rw [conduct_bind, conduct_lift]
      cases read here recipe with
      | error e => rfl
      | ok source =>
          simp only
          rw [conduct_openPipeline]
          rcases Pipeline.compile source .builtin settings with ⟨outcome, trace⟩
          cases outcome with
          | error e => rfl
          | ok p => rfl

/-- A run reads all that it needs, opens the pipeline, and prints nothing before the last batch has
passed. It breaks off if there is no room for the batches. -/
theorem perform_run (batchSize : Option Nat) :
    perform here (.run recipe input settings batchSize) =
      match Job.read here recipe input settings batchSize with
      | .error e => (.error e, .empty)
      | .ok job =>
          match Pipeline.compile job.source .builtin job.settings with
          | (.error e, trace) => (.error (.recipe recipe e), ⟨[], trace⟩)
          | (.ok p, trace) =>
              match intoBatches? here.room job.batchSize job.rows with
              | none => (.error .noRoom, ⟨[], trace ++ p.close.2⟩)
              | some batches =>
                  match p.run batches with
                  | (.error e, q, more) => (.error (.batch e), ⟨[], trace ++ more ++ q.close.2⟩)
                  | (.ok rows, q, more) =>
                      (.ok (), ⟨rows.map fun row => row.json.compact,
                        trace ++ more ++ q.close.2⟩) := by
  unfold perform ofCommand printRun
  rw [conduct_bind, conduct_lift]
  cases Job.read here recipe input settings batchSize with
  | error e => rfl
  | ok job =>
      simp only
      rw [conduct_openPipeline]
      rcases Pipeline.compile job.source .builtin job.settings with ⟨outcome, trace⟩
      cases outcome with
      | error e => rfl
      | ok p =>
          simp only
          rw [conduct_bind, conduct_runPipeline]
          cases intoBatches? here.room job.batchSize job.rows with
          | none => rfl
          | some batches =>
              simp only
              rcases p.run batches with ⟨outcome, q, more⟩
              cases outcome with
              | error e => rfl
              | ok rows => exact conduct_forM_print rows _ _

end RowRecipe.CommandLine
