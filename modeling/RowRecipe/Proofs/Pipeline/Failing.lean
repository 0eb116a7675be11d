import RowRecipe.Proofs.Pipeline.Feeding
import RowRecipe.Proofs.Pipeline.Opening

/-!
How pipelines fail. One that cannot be opened has executed nothing; and if all its directives fail
with execution errors only, so does every run.
-/

namespace RowRecipe

namespace Trace

theorem executions_eq_nil {position : Nat} {events : List Event} (h : Event.executed ∉ events) :
    (atStage position events).executions = [] := by
  rw [executions, List.filterMap_eq_nil_iff]
  intro happened hmem
  obtain ⟨event, hevent, rfl⟩ := List.mem_map.mp hmem
  refine if_neg fun hexecuted => h ?_
  obtain rfl : event = .executed := hexecuted
  exact hevent

end Trace

namespace Stage

theorem executed_notMem_prepare (args : Arguments) (s : Stage) :
    Event.executed ∉ (s.prepare args).2.2 := by
  unfold prepare
  split <;> simp

theorem executed_notMem_close (s : Stage) : Event.executed ∉ s.close.2 := by
  unfold close
  split <;> simp

end Stage

namespace Pipeline

theorem executions_closeStages (position : Nat) (stages : List Stage) :
    (closeStages position stages).2.executions = [] := by
  induction stages generalizing position with
  | nil => rfl
  | cons s rest ih =>
      have hclose : (closeStages position (s :: rest)).2 =
          .atStage position s.close.2 ++ (closeStages (position + 1) rest).2 := rfl
      rw [hclose, Trace.executions_append, ih, Trace.executions_eq_nil s.executed_notMem_close,
        List.append_nil]

theorem executed_notMem_prepareStage (group : TokenGroup) (stage : Stage) :
    Event.executed ∉ (prepareStage group stage).2.2 := by
  unfold prepareStage
  split
  · exact List.not_mem_nil
  · exact stage.executed_notMem_prepare _

/-- Opening stages executes nothing, whether it succeeds or not. -/
theorem executions_openStages (registry : Registry) (opened : List Stage)
    (groups : List TokenGroup) : (openStages registry opened groups).2.executions = [] := by
  induction groups generalizing opened with
  | nil => rfl
  | cons group rest ih =>
      cases hmade : stageOf registry group with
      | error e =>
          rw [openStages_of_unknown hmade]
          exact executions_closeStages 0 opened
      | ok made =>
          have hprepared := executed_notMem_prepareStage group made
          rcases hprepare : prepareStage group made with ⟨outcome, stage, events⟩
          rw [hprepare] at hprepared
          have hbegun : (Trace.atStage opened.length (.created :: events)).executions = [] := by
            apply Trace.executions_eq_nil
            simpa using hprepared
          cases outcome with
          | error e =>
              rw [openStages_of_unprepared hmade hprepare, Trace.executions_append,
                Trace.executions_append, hbegun,
                Trace.executions_eq_nil stage.executed_notMem_close, executions_closeStages]
              rfl
          | ok _ =>
              rw [openStages_of_prepared hmade hprepare, Trace.executions_append, hbegun, ih]
              rfl

theorem executions_compile (source : String) (registry : Registry) (settings : Settings) :
    (compile source registry settings).2.executions = [] := by
  unfold compile ofTable
  cases SymbolTable.compile source with
  | error e => rfl
  | ok table =>
      simp only
      cases check table registry settings with
      | error e => rfl
      | ok _ =>
          have hnothing := executions_openStages registry [] table.groups
          rcases hopen : openStages registry [] table.groups with ⟨outcome, trace⟩
          rw [hopen] at hnothing
          cases outcome <;> exact hnothing

variable {e : DirectiveError}

theorem passThrough_failsExecuting {position : Nat} {stages : List Stage} {rows : List Row}
    {c : Context} (hfails : ∀ s ∈ stages, s.directive.FailsExecuting)
    (h : (passThrough position stages rows c).1 = .error e) : e.IsExecution := by
  induction stages generalizing position rows c with
  | nil => cases h
  | cons s rest ih =>
      obtain ⟨hs, hrest⟩ := List.forall_mem_cons.mp hfails
      rcases hexecute : s.execute position rows c with ⟨outcome, next, d, events⟩
      cases outcome with
      | error e' =>
          rw [passThrough_of_error hexecute] at h
          cases h
          exact Stage.execute_failsExecuting hs hexecute
      | ok out =>
          rw [passThrough_of_ok hexecute] at h
          exact ih hrest h

theorem feed_failsExecuting {batches : List (List Row × Bool)} {p : Pipeline}
    (hfails : ∀ s ∈ p.stages, s.directive.FailsExecuting) (h : (p.feed batches).1 = .error e) :
    e.IsExecution := by
  rcases hfeed : p.feed batches with ⟨outcome, last, trace⟩
  rw [hfeed] at h
  obtain rfl : outcome = .error e := h
  obtain ⟨done, rows, isLast, rest, outs, next, first, second, -, hdone, hexecute, -⟩ :=
    feed_eq_error hfeed
  have hkeeps := feed_keeps done p
  rw [hdone] at hkeeps
  have hpass : (passThrough 0 next.stages rows (next.context.beginBatch isLast)).1 = .error e :=
    congrArg Prod.fst hexecute
  exact passThrough_failsExecuting (Stage.directives_of_lasting hkeeps hfails) hpass

/-- A run of the directives that every recipe can use fails only on a batch. -/
theorem run_failsExecuting {source : String} {settings : Settings} {p : Pipeline}
    (hcompile : (compile source .builtin settings).1 = .ok p) {batches : List (List Row)}
    (h : (p.run batches).1 = .error e) : e.IsExecution := by
  have hfails : ∀ s ∈ p.stages, s.directive.FailsExecuting := by
    intro s hs
    rw [directive_of_compile hcompile s hs]
    exact aggregateStats_failsExecuting
  rw [run_eq_feed] at h
  exact feed_failsExecuting (p := p.beginRun) hfails (Outcome.map_eq_error.mp h)

end Pipeline

end RowRecipe
