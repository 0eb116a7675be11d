import RowRecipe.Proofs.Pipeline.Lifecycle

/-!
What the context of a run says of its course. Whatever the directives of a pipeline do and whatever
is called on it, between two calls nothing is in memory that was to be remembered for a batch alone,
every entry belongs to a directive of the pipeline, and the count and the flag tell how many batches
were executed since the run began and whether one of them was marked as the last. A directive at work
changes its own entries only; all else follows from that.
-/

namespace RowRecipe

/-- A stage changes nothing in the context but the entries of its own position. -/
theorem Stage.execute_frame {owner : Nat} {rows : List Row} {c d : Context} {s next : Stage}
    {events : List Event} {outcome : Except DirectiveError (List Row)}
    (h : s.execute owner rows c = (outcome, next, d, events)) :
    d.batches = c.batches ∧ d.isFinal = c.isFinal ∧ ∀ other, other ≠ owner → ∀ lifetime key,
      d.memory.get? lifetime other key = c.memory.get? lifetime other key := by
  unfold execute at h
  split at h
  · cases h
    exact ⟨rfl, rfl, fun _ _ _ _ => rfl⟩
  · cases h
    exact ⟨rfl, rfl, fun _ hne => Memory.get?_writeAll_of_ne hne _ _⟩

namespace Pipeline

/-- Rows that pass through stages change the entries of no other position. -/
theorem passThrough_frame (position : Nat) (stages : List Stage) (rows : List Row) (c : Context) :
    let d := (passThrough position stages rows c).2.2.1
    d.batches = c.batches ∧ d.isFinal = c.isFinal ∧
      ∀ other, other < position ∨ position + stages.length ≤ other → ∀ lifetime key,
        d.memory.get? lifetime other key = c.memory.get? lifetime other key := by
  induction stages generalizing position rows c with
  | nil => exact ⟨rfl, rfl, fun _ _ _ _ => rfl⟩
  | cons s rest ih =>
      rw [List.length_cons]
      rcases hexecute : s.execute position rows c with ⟨outcome, next, d, events⟩
      obtain ⟨hbatches, hfinal, hothers⟩ := Stage.execute_frame hexecute
      cases outcome with
      | error e =>
          rw [passThrough_of_error hexecute]
          exact ⟨hbatches, hfinal, fun other hother => hothers other (by omega)⟩
      | ok out =>
          obtain ⟨hbatches', hfinal', hothers'⟩ := ih (position + 1) out d
          rw [passThrough_of_ok hexecute]
          refine ⟨hbatches'.trans hbatches, hfinal'.trans hfinal, ?_⟩
          intro other hother lifetime key
          exact (hothers' other (by omega) lifetime key).trans
            (hothers other (by omega) lifetime key)

/-- The marks of the batches that are executed when these are fed: of all of them, or of those up to
the one that fails. -/
def executed : List (List Row × Bool) → Pipeline → List Bool
  | [], _ => []
  | (rows, isLast) :: rest, p =>
      match p.executeBatch rows isLast with
      | (.error _, _, _) => [isLast]
      | (.ok _, p, _) => isLast :: executed rest p

/-- The marks of the batches executed since the current run began, after an operation on a pipeline
that has executed some before it. -/
def marksAfter (marks : List Bool) (p : Pipeline) : Operation → List Bool
  | .executeBatch _ isLast => marks ++ [isLast]
  | .run batches => p.beginRun.executed (runBatches batches)
  | .beginRun => []
  | .close => marks

/-- The same after several operations. -/
def marksAfterAll (marks : List Bool) (p : Pipeline) : List Operation → List Bool
  | [] => marks
  | operation :: rest => marksAfterAll (p.marksAfter marks operation) (p.operate operation).1 rest

end Pipeline

/-- The context tells of a run by so many directives in which batches with these marks were executed. -/
structure Context.Tells (count : Nat) (marks : List Bool) (c : Context) : Prop where
  /-- Nothing is remembered for a batch alone. -/
  lasting : ∀ owner key, c.memory.get? .batch owner key = none
  /-- Every entry belongs to one of the directives. -/
  owned : ∀ lifetime owner key cell, c.memory.get? lifetime owner key = some cell → owner < count
  batches : c.batches = marks.length
  isFinal : c.isFinal = true ↔ true ∈ marks

namespace Pipeline

variable {p : Pipeline} {marks : List Bool}

theorem tells_fresh (count : Nat) (environment : Environment) :
    (Context.fresh environment).Tells count [] where
  lasting _ _ := rfl
  owned _ _ _ _ h := nomatch h
  batches := rfl
  isFinal := by simp [Context.fresh]

/-- A batch counts, also when it fails. -/
theorem tells_executeBatch (h : p.context.Tells p.size marks) (rows : List Row) (isLast : Bool) :
    (p.executeBatch rows isLast).2.1.context.Tells p.size (marks ++ [isLast]) := by
  obtain ⟨hbatches, hfinal, hothers⟩ :=
    passThrough_frame 0 p.stages rows (p.context.beginBatch isLast)
  let d := (passThrough 0 p.stages rows (p.context.beginBatch isLast)).2.2.1
  change d.endBatch.Tells p.size (marks ++ [isLast])
  have hcleared : ∀ lifetime owner key, d.endBatch.memory.get? lifetime owner key =
      if lifetime = .batch then none else d.memory.get? lifetime owner key :=
    Memory.get?_clear d.memory .batch
  constructor
  · intro owner key
    rw [hcleared, if_pos rfl]
  · intro lifetime owner key cell hcell
    rw [hcleared] at hcell
    split at hcell
    · cases hcell
    · by_contra hpast
      have hbefore : p.context.memory.get? lifetime owner key = some cell := by
        rw [← hcell]
        exact (hothers owner (by rw [Nat.zero_add]; exact .inr (Nat.le_of_not_lt hpast))
          lifetime key).symm
      exact hpast (h.owned lifetime owner key cell hbefore)
  · have hcount : d.endBatch.batches = p.context.batches + 1 := hbatches
    rw [hcount, h.batches, List.length_append, List.length_singleton]
  · have hflag : d.endBatch.isFinal = (p.context.isFinal || isLast) := hfinal
    rw [hflag, Bool.or_eq_true, h.isFinal, List.mem_append, List.mem_singleton, eq_comm (a := true)]

/-- Batches that are fed count one by one, up to the one that fails. -/
theorem tells_feed {batches : List (List Row × Bool)} (h : p.context.Tells p.size marks) :
    (p.feed batches).2.1.context.Tells p.size (marks ++ p.executed batches) := by
  induction batches generalizing p marks with
  | nil =>
      rw [executed, List.append_nil]
      exact h
  | cons batch rest ih =>
      obtain ⟨rows, isLast⟩ := batch
      have hnext := tells_executeBatch h rows isLast
      have hsize := Stage.length_of_lasting (p.executeBatch_keeps rows isLast)
      rcases hexecute : p.executeBatch rows isLast with ⟨outcome, next, trace⟩
      rw [hexecute] at hnext hsize
      cases outcome with
      | error e =>
          rw [feed_of_error hexecute]
          simp only [executed, hexecute]
          exact hnext
      | ok out =>
          have hnext' : next.context.Tells next.size (marks ++ [isLast]) := by
            rw [size, hsize]
            exact hnext
          have hlast := ih hnext'
          rw [size, hsize, List.append_assoc] at hlast
          rw [feed_of_ok hexecute]
          simp only [executed, hexecute]
          exact hlast

theorem length_closeStages (position : Nat) (stages : List Stage) :
    (closeStages position stages).1.length = stages.length := by
  induction stages generalizing position with
  | nil => rfl
  | cons s rest ih => exact congrArg Nat.succ (ih (position + 1))

/-- No operation adds or removes a stage. -/
theorem size_operate (operation : Operation) (p : Pipeline) :
    (p.operate operation).1.size = p.size := by
  cases operation with
  | executeBatch rows isLast => exact Stage.length_of_lasting (p.executeBatch_keeps rows isLast)
  | run batches =>
      rw [operate, run_eq_feed]
      exact Stage.length_of_lasting (feed_keeps (runBatches batches) p.beginRun)
  | beginRun => rfl
  | close => exact length_closeStages 0 p.stages

theorem tells_operate (h : p.context.Tells p.size marks) (operation : Operation) :
    (p.operate operation).1.context.Tells p.size (p.marksAfter marks operation) := by
  cases operation with
  | executeBatch rows isLast => exact tells_executeBatch h rows isLast
  | run batches =>
      rw [operate, run_eq_feed]
      exact tells_feed (p := p.beginRun) (tells_fresh p.size p.context.environment)
  | beginRun => exact tells_fresh p.size p.context.environment
  | close => exact h

theorem tells_operateAll (h : p.context.Tells p.size marks) (operations : List Operation) :
    (p.operateAll operations).1.context.Tells p.size (p.marksAfterAll marks operations) ∧
      (p.operateAll operations).1.size = p.size := by
  induction operations generalizing p marks with
  | nil => exact ⟨h, rfl⟩
  | cons operation rest ih =>
      have hnext := tells_operate h operation
      have hsize := p.size_operate operation
      rw [← hsize] at hnext
      obtain ⟨hlast, hlastSize⟩ := ih hnext
      rw [hsize] at hlast hlastSize
      exact ⟨hlast, hlastSize⟩

/-- While the pipeline executes a batch, the directive at an index gets what those in front of it have
passed on, and takes the context from one to the other. -/
def TakesOver (p : Pipeline) (rows : List Row) (isLast : Bool) (index : Nat)
    (before after : Context) : Prop :=
  ∃ s passed front trace outcome next events, p.stages[index]? = some s ∧
    passThrough 0 (p.stages.take index) rows (p.context.beginBatch isLast) =
      (.ok passed, front, before, trace) ∧
    s.execute index passed before = (outcome, next, after, events)

/-- The books of a pipeline are in order, whatever directives it has and whatever was called on it.
Between calls, nothing in memory is for a batch alone, and every entry belongs to a directive of the
pipeline. The context counts the batches executed since the run began, those that failed too, and
knows whether one was marked as the last; no further batch takes that back. And a directive at work
leaves the entries of all others as they are. -/
theorem books_inOrder {table : SymbolTable} {registry : Registry} {settings : Settings}
    {p : Pipeline} {opening : Trace} (h : ofTable table registry settings = (.ok p, opening))
    (operations : List Operation) :
    let q := (p.operateAll operations).1
    q.size = p.size ∧ q.context.Tells p.size (p.marksAfterAll [] operations) ∧
      (∀ rows isLast, q.context.isFinal = true →
        (q.executeBatch rows isLast).2.1.context.isFinal = true) ∧
      ∀ rows isLast index before after, q.TakesOver rows isLast index before after →
        ∀ other, other ≠ index → ∀ lifetime key,
          after.memory.get? lifetime other key = before.memory.get? lifetime other key := by
  intro q
  have hfresh : p.context.Tells p.size [] := by
    obtain ⟨-, -, hcontext⟩ := ofTable_opens (congrArg Prod.fst h)
    rw [hcontext]
    exact tells_fresh p.size settings.environment
  obtain ⟨htells, hsize⟩ := tells_operateAll hfresh operations
  refine ⟨hsize, htells, ?_, ?_⟩
  · intro rows isLast hfinal
    rw [← hsize] at htells
    have hnext := tells_executeBatch htells rows isLast
    rw [hnext.isFinal, List.mem_append]
    exact .inl (htells.isFinal.mp hfinal)
  · rintro rows isLast index before after ⟨s, _, _, _, _, _, _, -, -, hexecute⟩
    exact (Stage.execute_frame hexecute).2.2

/-- A directive that remembers how many rows a batch has, and refuses batches without any. -/
def counting : Directive where
  State := Unit
  start := ()
  usage := .ofName "counting"
  prepare := fun _ state => ⟨.ok (), state, []⟩
  execute := fun rows _ state =>
    ⟨if rows.isEmpty then .error (.execution "counting" "" "no rows") else .ok rows, state,
      [.set .batch "rows" (.int rows.length), .set .run "rows" (.int rows.length)], []⟩
  destroy := fun _ => []

/-- A pipeline of this directive alone. -/
def ofCounting : Pipeline where
  table := ⟨[⟨[.directiveName "counting"], default⟩], [], none⟩
  stages := [⟨"counting", default, counting, (), false⟩]
  context := .fresh .testing

/-- A run of three batches that fails at the second one, and a batch for the closed pipeline. -/
def failingThenClosed : List Operation :=
  [.executeBatch [.empty] true, .run [[.empty], [], [.empty]], .close, .executeBatch [.empty] false]

theorem books_inOrder_counting :
    ofTable ofCounting.table (.ofList [("counting", counting)]) .testing =
        (.ok ofCounting, [(0, .created), (0, .prepared true)]) ∧
      ofCounting.marksAfterAll [] failingThenClosed = [false, false, false] ∧
      (ofCounting.operateAll failingThenClosed).1.context.Tells 1 [false, false, false] := by
  have hopen : ofTable ofCounting.table (.ofList [("counting", counting)]) .testing =
      (.ok ofCounting, [(0, .created), (0, .prepared true)]) := rfl
  have hmarks : ofCounting.marksAfterAll [] failingThenClosed = [false, false, false] := rfl
  obtain ⟨-, htells, -⟩ := books_inOrder hopen failingThenClosed
  rw [hmarks] at htells
  exact ⟨hopen, hmarks, htells⟩

end Pipeline

end RowRecipe
