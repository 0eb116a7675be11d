import RowRecipe.AggregateStats.Basic
import RowRecipe.Directive.Stage
import RowRecipe.Proofs.Outcome

/-!
What is known of the directives that every recipe can use. They are steady: they keep nothing outside
the memory of a run, and do the same in every environment. And when they cannot process a batch, they
say so with an error that names a column.
-/

namespace RowRecipe

/-- The same context in another environment. -/
def Context.inEnvironment (environment : Environment) (c : Context) : Context :=
  { c with environment }

/-- The error tells of a batch that could not be processed. -/
def DirectiveError.IsExecution (e : DirectiveError) : Prop :=
  ∃ directive column message, e = .execution directive column message

namespace Directive

/-- The directive stays as it was prepared, and does the same in every environment. -/
structure Steady (d : Directive) : Prop where
  state : ∀ rows view state, (d.execute rows view state).state = state
  environment : ∀ environment rows c owner state,
    d.execute rows ⟨c.inEnvironment environment, owner⟩ state = d.execute rows ⟨c, owner⟩ state

/-- A batch that the directive fails on is one that it cannot process. -/
def FailsExecuting (d : Directive) : Prop :=
  ∀ rows view state e, (d.execute rows view state).outcome = .error e → e.IsExecution

end Directive

theorem aggregateStats_steady : aggregateStats.Steady := by
  constructor
  · intro rows view state
    simp only [aggregateStats, AggregateStats.execute]
    split
    · rfl
    · split <;> rfl
  · intro environment rows c owner state
    rfl

namespace AggregateStats

theorem isExecution_of_addCell {U : Type} [UnitFamily U] {column : String} {cell : Cell}
    {quantity : Except UnitError (Option (Quantity U))} {t : Tally} {e : DirectiveError}
    (h : addCell column cell quantity t = .error e) : e.IsExecution := by
  unfold addCell at h
  split at h
  · cases h
    exact ⟨_, _, _, rfl⟩
  · cases h
  · split at h
    · cases h
    · cases h
      exact ⟨_, _, _, rfl⟩

theorem isExecution_of_addRow {s : AggregateStats} {t : Totals} {row : Row} {e : DirectiveError}
    (h : s.addRow t row = .error e) : e.IsExecution := by
  unfold addRow at h
  rcases Outcome.bind_eq_error.mp h with hbytes | ⟨bytes, -, h⟩
  · exact isExecution_of_addCell hbytes
  · rcases Outcome.bind_eq_error.mp h with htime | ⟨time, -, h⟩
    · exact isExecution_of_addCell htime
    · cases h

theorem isExecution_of_foldlM_addRow {s : AggregateStats} {t : Totals} {rows : List Row}
    {e : DirectiveError} (h : rows.foldlM s.addRow t = .error e) : e.IsExecution := by
  induction rows generalizing t with
  | nil => cases h
  | cons row rest ih =>
      rw [List.foldlM_cons] at h
      rcases Outcome.bind_eq_error.mp h with hrow | ⟨totals, -, hrest⟩
      · exact isExecution_of_addRow hrow
      · exact ih hrest

end AggregateStats

theorem aggregateStats_failsExecuting : aggregateStats.FailsExecuting := by
  intro rows view state e h
  simp only [aggregateStats, AggregateStats.execute] at h
  split at h
  · rename_i hrows
    cases h
    exact AggregateStats.isExecution_of_foldlM_addRow hrows
  · split at h <;> cases h

namespace Registry

/-- The registry holds the one directive only. -/
theorem get?_builtin {name : String} {d : Directive} (h : builtin.get? name = some d) :
    name = AggregateStats.directiveName ∧ d = aggregateStats := by
  have hget : builtin.get? name =
      if AggregateStats.directiveName = name then some aggregateStats else none := rfl
  rw [hget] at h
  split at h
  · rename_i hname
    exact ⟨hname.symm, (Option.some.inj h).symm⟩
  · cases h

end Registry

namespace Stage

variable {owner : Nat} {rows : List Row} {c d : Context} {s next : Stage} {events : List Event}
  {outcome : Except DirectiveError (List Row)}

/-- A stage with a steady directive does not change, and neither does the environment; in another
environment the same happens. -/
theorem execute_steady (hsteady : s.directive.Steady)
    (h : s.execute owner rows c = (outcome, next, d, events)) :
    next = s ∧ d.environment = c.environment ∧
      ∀ environment, s.execute owner rows (c.inEnvironment environment) =
        (outcome, s, d.inEnvironment environment, events) := by
  unfold execute at h ⊢
  by_cases hdestroyed : s.isDestroyed
  · simp only [if_pos hdestroyed] at h ⊢
    cases h
    exact ⟨rfl, rfl, fun _ => rfl⟩
  · simp only [if_neg hdestroyed, hsteady.state, hsteady.environment] at h ⊢
    cases h
    exact ⟨rfl, rfl, fun _ => rfl⟩

/-- A stage that fails does so because of its directive or because it is destroyed. -/
theorem execute_failsExecuting {e : DirectiveError} (hfails : s.directive.FailsExecuting)
    (h : s.execute owner rows c = (.error e, next, d, events)) : e.IsExecution := by
  unfold execute at h
  by_cases hdestroyed : s.isDestroyed
  · rw [if_pos hdestroyed] at h
    cases h
    exact ⟨_, _, _, rfl⟩
  · rw [if_neg hdestroyed] at h
    exact hfails _ _ _ e (congrArg Prod.fst h)

end Stage

end RowRecipe
