import RowRecipe.AggregateStats.Basic
import RowRecipe.Directive.Stage
import RowRecipe.Proofs.Memory

/-!
Isolated directives. A directive that looks at nothing but its own entries cannot tell at which
position it stands, nor what the directives at other positions have stored. So it does the same in
two contexts that agree on its entries, and they agree on them afterwards too.
-/

namespace RowRecipe

/-- The two views show the same to a directive that looks at its own entries only. -/
structure View.Alike (v v' : View) : Prop where
  environment : v.context.environment = v'.context.environment
  batches : v.context.batches = v'.context.batches
  isFinal : v.context.isFinal = v'.context.isFinal
  get? : ∀ lifetime key, v.get? lifetime key = v'.get? lifetime key

/-- The directive reaches the memory of a run through its own entries alone. -/
def Directive.Isolated (d : Directive) : Prop :=
  ∀ rows v v' state, View.Alike v v' → d.execute rows v state = d.execute rows v' state

theorem aggregateStats_isolated : aggregateStats.Isolated := by
  intro rows v v' state halike
  have hnumber : ∀ key, Totals.number v key = Totals.number v' key := by
    intro key
    rw [Totals.number, halike.get?, ← Totals.number]
  have htotals : Totals.ofView v = Totals.ofView v' := by
    simp only [Totals.ofView, hnumber]
  simp only [aggregateStats, AggregateStats.execute, htotals, halike.isFinal]

namespace Context

/-- The first `count` directives see in one context what those that stand `ahead` positions further
see in another. -/
structure Agree (count ahead : Nat) (c c' : Context) : Prop where
  environment : c.environment = c'.environment
  batches : c.batches = c'.batches
  isFinal : c.isFinal = c'.isFinal
  get? : ∀ k < count, ∀ lifetime key,
    c.memory.get? lifetime k key = c'.memory.get? lifetime (k + ahead) key

variable {count ahead : Nat} {c c' : Context}

theorem agree_fresh (environment : Environment) :
    Agree count ahead (fresh environment) (fresh environment) :=
  ⟨rfl, rfl, rfl, fun _ _ _ _ => rfl⟩

namespace Agree

theorem beginBatch (h : Agree count ahead c c') (isLast : Bool) :
    Agree count ahead (c.beginBatch isLast) (c'.beginBatch isLast) := by
  refine ⟨h.environment, ?_, ?_, h.get?⟩
  · rw [Context.beginBatch, Context.beginBatch, h.batches]
  · rw [Context.beginBatch, Context.beginBatch, h.isFinal]

/-- What is forgotten after a batch is forgotten for all directives. -/
theorem endBatch (h : Agree count ahead c c') : Agree count ahead c.endBatch c'.endBatch := by
  refine ⟨h.environment, h.batches, h.isFinal, fun k hk lifetime key => ?_⟩
  rw [Context.endBatch, Context.endBatch, Memory.get?_clear, Memory.get?_clear,
    h.get? k hk]

theorem alike (h : Agree count ahead c c') {k : Nat} (hk : k < count) :
    View.Alike ⟨c, k⟩ ⟨c', k + ahead⟩ :=
  ⟨h.environment, h.batches, h.isFinal, h.get? k hk⟩

/-- Contexts agree after one of the directives has written to both. -/
theorem writeAll (h : Agree count ahead c c') {owner : Nat} (howner : owner < count)
    (writes : List Memory.Write) :
    Agree count ahead (c.writeAll owner writes) (c'.writeAll (owner + ahead) writes) := by
  refine ⟨h.environment, h.batches, h.isFinal, fun k hk lifetime key => ?_⟩
  by_cases hne : k = owner
  · subst hne
    exact Memory.get?_writeAll_congr (h.get? k hk) writes lifetime key
  · have hne' : k + ahead ≠ owner + ahead := fun h => hne (Nat.add_right_cancel h)
    simp only [Context.writeAll, Memory.get?_writeAll_of_ne hne, Memory.get?_writeAll_of_ne hne']
    exact h.get? k hk lifetime key

/-- What is written at a position that is none of theirs does not matter to the directives. -/
theorem writeAll_apart (h : Agree count ahead c c') {owner : Nat}
    (howner : ∀ k < count, k + ahead ≠ owner) (writes : List Memory.Write) :
    Agree count ahead c (c'.writeAll owner writes) := by
  refine ⟨h.environment, h.batches, h.isFinal, fun k hk lifetime key => ?_⟩
  simp only [Context.writeAll, Memory.get?_writeAll_of_ne (howner k hk)]
  exact h.get? k hk lifetime key

end Agree

end Context

namespace Stage

variable {count ahead owner : Nat} {c c' : Context} {rows : List Row} {s next : Stage}
  {events : List Event} {outcome : Except DirectiveError (List Row)}

/-- A stage keeps its directive, and stays destroyed or not, whatever it executes. -/
theorem execute_keeps (h : s.execute owner rows c = (outcome, next, c', events)) :
    next.directive = s.directive ∧ next.isDestroyed = s.isDestroyed := by
  unfold execute at h
  split at h
  · cases h
    exact ⟨rfl, rfl⟩
  · cases h
    exact ⟨rfl, rfl⟩

/-- An isolated directive does the same for the same rows wherever it stands. -/
theorem execute_agree (hisolated : s.directive.Isolated) (h : Context.Agree count ahead c c')
    (howner : owner < count) (rows : List Row) :
    ∃ outcome next d d' events, s.execute owner rows c = (outcome, next, d, events) ∧
      s.execute (owner + ahead) rows c' = (outcome, next, d', events) ∧
      Context.Agree count ahead d d' := by
  unfold execute
  by_cases hdestroyed : s.isDestroyed
  · simp only [if_pos hdestroyed]
    exact ⟨_, _, _, _, _, rfl, rfl, h⟩
  · have hsame := hisolated rows _ _ s.state (h.alike howner)
    simp only [if_neg hdestroyed, ← hsame]
    exact ⟨_, _, _, _, _, rfl, rfl, h.writeAll howner _⟩

/-- Directives at other positions do not notice. -/
theorem execute_apart {d : Context} (h : s.execute owner rows c' = (outcome, next, d, events))
    (hagree : Context.Agree count ahead c c') (howner : ∀ k < count, k + ahead ≠ owner) :
    Context.Agree count ahead c d := by
  unfold execute at h
  split at h
  · cases h
    exact hagree
  · cases h
    exact hagree.writeAll_apart howner _

end Stage

end RowRecipe
