import RowRecipe.Pipeline.Batches
import RowRecipe.Proofs.AggregateStats.Machine
import RowRecipe.Proofs.Outcome
import RowRecipe.Proofs.Pipeline.Lifecycle

/-!
Runs that can be repeated. What a run gives depends on its recipe and its batches alone: neither on
what was done with the pipeline before, nor on the environment. Steady directives leave nothing behind
but what is in the context, and beginning a run forgets that; so a pipeline that begins a run is what
it was when it was compiled. To change the environment, and to execute a batch, can be done in either
order.
-/

namespace RowRecipe.Pipeline

/-- The same pipeline in another environment. -/
def inEnvironment (environment : Environment) (p : Pipeline) : Pipeline :=
  { p with context := p.context.inEnvironment environment }

/-- All directives of the pipeline are steady. -/
def Steady (p : Pipeline) : Prop := ∀ s ∈ p.stages, s.directive.Steady

/-- Steady stages stay as they are while rows pass through them. -/
theorem passThrough_steady (position : Nat) {stages : List Stage}
    (hsteady : ∀ s ∈ stages, s.directive.Steady) (rows : List Row) (c : Context) :
    ∃ outcome d trace, passThrough position stages rows c = (outcome, stages, d, trace) ∧
      d.environment = c.environment ∧
      ∀ environment, passThrough position stages rows (c.inEnvironment environment) =
        (outcome, stages, d.inEnvironment environment, trace) := by
  induction stages generalizing position rows c with
  | nil => exact ⟨_, _, _, rfl, rfl, fun _ => rfl⟩
  | cons s rest ih =>
      obtain ⟨hs, hrest⟩ := List.forall_mem_cons.mp hsteady
      rcases hexecute : s.execute position rows c with ⟨outcome, next, d, events⟩
      obtain ⟨rfl, henvironment, hother⟩ := Stage.execute_steady hs hexecute
      cases outcome with
      | error e =>
          exact ⟨_, _, _, passThrough_of_error hexecute, henvironment,
            fun environment => passThrough_of_error (hother environment)⟩
      | ok out =>
          obtain ⟨outcome, l, trace, hpass, henvironment', hother'⟩ := ih (position + 1) hrest out d
          refine ⟨outcome, l, .atStage position events ++ trace, ?_,
            henvironment'.trans henvironment, fun environment => ?_⟩
          · rw [passThrough_of_ok hexecute, hpass]
          · rw [passThrough_of_ok (hother environment), hother']

/-- A batch changes nothing that a pipeline has when it begins a run. -/
theorem executeBatch_steady {p : Pipeline} (hsteady : p.Steady) (rows : List Row) (isLast : Bool) :
    ∃ outcome p' trace, p.executeBatch rows isLast = (outcome, p', trace) ∧
      p'.beginRun = p.beginRun ∧
      ∀ environment, (p.inEnvironment environment).executeBatch rows isLast =
        (outcome, p'.inEnvironment environment, trace) := by
  obtain ⟨outcome, d, trace, hpass, henvironment, hother⟩ :=
    passThrough_steady 0 hsteady rows (p.context.beginBatch isLast)
  have hbegin : ∀ environment, (p.inEnvironment environment).context.beginBatch isLast =
      (p.context.beginBatch isLast).inEnvironment environment := fun _ => rfl
  refine ⟨outcome, { p with context := d.endBatch }, trace, ?_, ?_, fun environment => ?_⟩
  · rw [executeBatch, hpass]
  · have hkept : d.endBatch.environment = p.context.environment := henvironment
    rw [beginRun, beginRun, hkept]
  · rw [executeBatch, hbegin]
    simp only [inEnvironment, hother]
    rfl

theorem stages_of_beginRun {p q : Pipeline} (h : q.beginRun = p.beginRun) : q.stages = p.stages := by
  have hbegin : q.beginRun.stages = p.beginRun.stages := by rw [h]
  exact hbegin

theorem steady_of_beginRun {p q : Pipeline} (h : q.beginRun = p.beginRun) (hsteady : p.Steady) :
    q.Steady := by
  rw [Steady, stages_of_beginRun h]
  exact hsteady

theorem executeAll_steady {p : Pipeline} (hsteady : p.Steady) (batches : List (List Row)) :
    ∃ outcome p' trace, p.executeAll batches = (outcome, p', trace) ∧
      p'.beginRun = p.beginRun ∧
      ∀ environment, (p.inEnvironment environment).executeAll batches =
        (outcome, p'.inEnvironment environment, trace) := by
  induction batches generalizing p with
  | nil => exact ⟨_, _, _, rfl, rfl, fun _ => rfl⟩
  | cons rows rest ih =>
      obtain ⟨outcome, next, trace, hexecute, hkept, hother⟩ :=
        executeBatch_steady hsteady rows rest.isEmpty
      cases outcome with
      | error e =>
          refine ⟨.error e, next, trace, ?_, hkept, fun environment => ?_⟩
          · simp only [executeAll, hexecute]
          · simp only [executeAll, hother]
      | ok out =>
          obtain ⟨outcome, last, more, hrest, hkept', hother'⟩ :=
            ih (steady_of_beginRun hkept hsteady)
          refine ⟨outcome.map (out ++ ·), last, trace ++ more, ?_, hkept'.trans hkept,
            fun environment => ?_⟩
          · simp only [executeAll, hexecute, hrest]
          · simp only [executeAll, hother, hother']

/-- A run does the same in every environment. -/
theorem run_inEnvironment {p : Pipeline} (hsteady : p.Steady) (environment : Environment)
    (batches : List (List Row)) :
    (p.inEnvironment environment).run batches =
      ((p.run batches).1, (p.run batches).2.1.inEnvironment environment, (p.run batches).2.2) := by
  obtain ⟨outcome, p', trace, hrun, -, hother⟩ :=
    executeAll_steady (p := p.beginRun) hsteady (if batches.isEmpty then [[]] else batches)
  have hbegin : (p.inEnvironment environment).beginRun = p.beginRun.inEnvironment environment := rfl
  rw [run, run, hbegin, hother, hrun]

/-- No operation but closing changes what a pipeline has when it begins a run. -/
theorem operate_steady {p : Pipeline} (hsteady : p.Steady) {operation : Operation}
    (hopen : operation ≠ .close) : (p.operate operation).1.beginRun = p.beginRun := by
  cases operation with
  | executeBatch rows isLast =>
      obtain ⟨outcome, p', trace, hexecute, hkept, -⟩ := executeBatch_steady hsteady rows isLast
      rw [operate, hexecute]
      exact hkept
  | run batches =>
      obtain ⟨outcome, p', trace, hrun, hkept, -⟩ :=
        executeAll_steady (p := p.beginRun) hsteady (if batches.isEmpty then [[]] else batches)
      rw [operate, run, hrun]
      exact hkept
  | beginRun => rfl
  | close => exact absurd rfl hopen

theorem operateAll_steady {p : Pipeline} (hsteady : p.Steady) {operations : List Operation}
    (hopen : .close ∉ operations) : (p.operateAll operations).1.beginRun = p.beginRun := by
  induction operations generalizing p with
  | nil => rfl
  | cons operation rest ih =>
      obtain ⟨hne, hrest⟩ := List.ne_and_not_mem_of_not_mem_cons hopen
      have hkept := operate_steady hsteady hne.symm
      exact (ih (steady_of_beginRun hkept hsteady) hrest).trans hkept

/-- After any operations but closing, a run is what it would have been before them. -/
theorem run_operateAll {p : Pipeline} (hsteady : p.Steady) {operations : List Operation}
    (hopen : .close ∉ operations) (batches : List (List Row)) :
    (p.operateAll operations).1.run batches = p.run batches := by
  rw [run, run, operateAll_steady hsteady hopen]

theorem steady_of_compile {source : String} {settings : Settings} {p : Pipeline}
    (h : (compile source .builtin settings).1 = .ok p) : p.Steady := by
  intro s hs
  rw [directive_of_compile h s hs]
  exact aggregateStats_steady

/-- Settings matter to the pipeline of a recipe by the version that they require and by their
environment. -/
theorem compile_eq (source : String) (registry : Registry) (settings : Settings) :
    (compile source registry settings).1 =
      ((SymbolTable.compile source).mapError .compile).bind fun table =>
        (check table registry settings).bind fun _ =>
          (openStages registry [] table.groups).1.map fun stages =>
            ⟨table, stages, .fresh settings.environment⟩ := by
  unfold compile ofTable
  cases SymbolTable.compile source with
  | error e => rfl
  | ok table =>
      simp only [Except.mapError, Except.bind]
      cases check table registry settings with
      | error e => rfl
      | ok _ =>
          rcases openStages registry [] table.groups with ⟨outcome, trace⟩
          cases outcome <;> rfl

/-- Settings that require the same version make the same pipeline of a recipe, each in its own
environment. -/
theorem compile_sameVersion {settings settings' : Settings}
    (h : settings.grammarVersion = settings'.grammarVersion) (source : String)
    (registry : Registry) :
    (compile source registry settings').1 =
      (compile source registry settings).1.map (inEnvironment settings'.environment) := by
  have hcheck : ∀ table, check table registry settings' = check table registry settings := by
    intro table
    rw [check, check, h]
  rw [compile_eq, compile_eq]
  cases SymbolTable.compile source with
  | error e => rfl
  | ok table =>
      simp only [Except.mapError, Except.bind, hcheck]
      cases check table registry settings with
      | error e => rfl
      | ok _ => cases (openStages registry [] table.groups).1 <;> rfl

/-- Two compiled pipelines of a recipe differ in their environments only. -/
theorem eq_inEnvironment_of_compile {source : String} {registry : Registry}
    {settings settings' : Settings} {p p' : Pipeline}
    (h : (compile source registry settings).1 = .ok p)
    (h' : (compile source registry settings').1 = .ok p') :
    p' = p.inEnvironment settings'.environment := by
  rw [compile_eq] at h h'
  cases hsource : SymbolTable.compile source with
  | error e =>
      rw [hsource] at h
      cases h
  | ok table =>
      simp only [hsource, Except.mapError, Except.bind] at h h'
      cases hcheck : check table registry settings with
      | error e =>
          rw [hcheck] at h
          cases h
      | ok _ =>
          cases hcheck' : check table registry settings' with
          | error e =>
              rw [hcheck'] at h'
              cases h'
          | ok _ =>
              obtain ⟨stages, hstages, rfl⟩ := Outcome.map_eq_ok.mp (hcheck ▸ h)
              obtain ⟨stages', hstages', rfl⟩ := Outcome.map_eq_ok.mp (hcheck' ▸ h')
              rw [hstages] at hstages'
              cases hstages'
              rfl

/-- A run of a single batch executes it as the last one. -/
theorem run_single (rows : List Row) (p : Pipeline) :
    (p.run [rows]).1 = (p.beginRun.executeBatch rows true).1 := by
  have hall : p.run [rows] = p.beginRun.executeAll [rows] := rfl
  rcases hexecute : p.beginRun.executeBatch rows true with ⟨outcome, p', trace⟩
  rw [hall]
  simp only [executeAll, List.isEmpty_nil, hexecute]
  cases outcome with
  | error e => rfl
  | ok out => exact congrArg Except.ok (List.append_nil out)

/-- A run depends on its recipe and its batches only. After any operations but closing, a pipeline
gives the same rows or the same error for them as a newly compiled one, whatever settings each was
compiled with, and their contexts end with the same count of batches, the same flag and the same
entries. To execute a recipe in one step is such a run of a single batch. -/
theorem run_reproducible (source : String) :
    (∀ settings settings' p p', (compile source .builtin settings).1 = .ok p →
      (compile source .builtin settings').1 = .ok p' →
      ∀ operations, Operation.close ∉ operations → ∀ batches,
        let again := (p.operateAll operations).1.run batches
        let first := p'.run batches
        again.1 = first.1 ∧
          again.2.1.context.batches = first.2.1.context.batches ∧
          again.2.1.context.isFinal = first.2.1.context.isFinal ∧
          again.2.1.context.memory = first.2.1.context.memory) ∧
    ∀ settings, settings.grammarVersion = none → ∀ rows,
      executeRecipe source rows = (compile source .builtin settings).1.bind fun p =>
        (p.run [rows]).1.mapError .directive := by
  constructor
  · intro settings settings' p p' hcompile hcompile' operations hopen batches
    have hsteady := steady_of_compile hcompile
    obtain rfl := eq_inEnvironment_of_compile hcompile hcompile'
    rw [run_operateAll hsteady hopen, run_inEnvironment hsteady]
    exact ⟨rfl, rfl, rfl, rfl⟩
  · intro settings hversion rows
    have hsame : Settings.testing.grammarVersion = settings.grammarVersion := hversion.symm
    rw [compile_sameVersion hsame, executeRecipe]
    cases hcompile : (compile source .builtin .testing).1 with
    | error e => rfl
    | ok p =>
        obtain ⟨-, -, hfresh⟩ := compile_opens hcompile
        have hbegin : p.beginRun = p := by
          rw [beginRun, hfresh]
          exact congrArg (Pipeline.mk p.table p.stages) hfresh.symm
        have hrun : ((p.inEnvironment settings.environment).run [rows]).1 =
            (p.executeBatch rows true).1 := by
          rw [run_inEnvironment (steady_of_compile hcompile), run_single, hbegin]
        exact congrArg (Except.mapError RecipeError.directive) hrun.symm

/-- A batch that fails as the last one, a whole run, and totals that stay pending. -/
def usedBefore : List Operation :=
  [.executeBatch [.ofList [("a", .raw "1 KB")], .ofList [("a", .raw "many")]] true,
    .run [[.ofList [("b", .raw "2 s")]], []], .executeBatch [.ofList [("a", .raw "7 B")]] false]

theorem run_reproducible_fourColumns :
    (compile "aggregate-stats :a :b :c :d" .builtin .testing).1 =
        .ok AggregateStats.ofFourColumns ∧
      (compile "aggregate-stats :a :b :c :d" .builtin .standard).1 =
        .ok (AggregateStats.ofFourColumns.inEnvironment .production) ∧
      Operation.close ∉ usedBefore ∧
      ((AggregateStats.ofFourColumns.operateAll usedBefore).1.run [[.ofList [("a", .raw "1 KB")]]]).1 =
        ((AggregateStats.ofFourColumns.inEnvironment .production).run
          [[.ofList [("a", .raw "1 KB")]]]).1 ∧
      Settings.standard.grammarVersion = none ∧
      executeRecipe "aggregate-stats :a :b :c :d" [.ofList [("a", .raw "1 KB")]] =
        (compile "aggregate-stats :a :b :c :d" .builtin .standard).1.bind fun p =>
          (p.run [[.ofList [("a", .raw "1 KB")]]]).1.mapError .directive := by
  have htesting := AggregateStats.compile_fourColumns
  have hstandard : (compile "aggregate-stats :a :b :c :d" .builtin .standard).1 =
      .ok (AggregateStats.ofFourColumns.inEnvironment .production) := by
    have hsame : Settings.testing.grammarVersion = Settings.standard.grammarVersion := rfl
    rw [compile_sameVersion hsame, htesting]
    rfl
  have hopen : Operation.close ∉ usedBefore := by simp [usedBefore]
  obtain ⟨hruns, honce⟩ := run_reproducible "aggregate-stats :a :b :c :d"
  obtain ⟨hrows, -⟩ := hruns _ _ _ _ htesting hstandard _ hopen [[.ofList [("a", .raw "1 KB")]]]
  exact ⟨htesting, hstandard, hopen, hrows, rfl, honce _ rfl _⟩

end RowRecipe.Pipeline
