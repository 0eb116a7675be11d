import RowRecipe.Proofs.Outcome
import RowRecipe.Proofs.Pipeline.Feeding

/-!
Pipelines are sequential compositions of their stages. When a pipeline is cut in two, each half can
work in a context of its own: what the shared memory holds for the stages of one half, and nothing
else, is what that half sees. One batch shows this by a pass through the stages; it then holds of
all batches, and, one stage at a time, of all stages.
-/

namespace RowRecipe

/-- The same events of stages that stand further along. -/
def Trace.ahead (distance : Nat) (trace : Trace) : Trace :=
  trace.map fun p => (p.1 + distance, p.2)

namespace Trace

theorem ahead_append (distance : Nat) (first second : Trace) :
    ahead distance (first ++ second) = ahead distance first ++ ahead distance second :=
  List.map_append

theorem ahead_atStage (distance position : Nat) (events : List Event) :
    ahead distance (atStage position events) = atStage (position + distance) events := by
  rw [ahead, atStage, List.map_map]
  rfl

theorem executions_ahead (distance : Nat) (trace : Trace) :
    (ahead distance trace).executions = trace.executions.map (· + distance) := by
  induction trace with
  | nil => rfl
  | cons p rest ih =>
      obtain ⟨position, event⟩ := p
      rw [executions] at ih ⊢
      rw [executions, ahead, List.map_cons, List.filterMap_cons, List.filterMap_cons]
      by_cases hevent : event = .executed
      · simp only [if_pos hevent, List.map_cons]
        exact congrArg _ ih
      · simp only [if_neg hevent]
        exact ih

end Trace

namespace Pipeline

/-- Stages pass rows on as if those before them and those after them worked one after the other. -/
theorem passThrough_append (position : Nat) (first second : List Stage) (rows : List Row)
    (c : Context) :
    passThrough position (first ++ second) rows c =
      match passThrough position first rows c with
      | (.error e, next, d, trace) => (.error e, next ++ second, d, trace)
      | (.ok out, next, d, trace) =>
          let (outcome, last, d, more) := passThrough (position + first.length) second out d
          (outcome, next ++ last, d, trace ++ more) := by
  induction first generalizing position rows c with
  | nil => rfl
  | cons s rest ih =>
      rcases hexecute : s.execute position rows c with ⟨outcome, next, d, events⟩
      have hposition : position + (s :: rest).length = position + 1 + rest.length := by
        rw [List.length_cons, Nat.add_comm rest.length, Nat.add_assoc]
      cases outcome with
      | error e =>
          rw [List.cons_append, passThrough_of_error hexecute, passThrough_of_error hexecute]
          rfl
      | ok out =>
          rw [List.cons_append, passThrough_of_ok hexecute, passThrough_of_ok hexecute, ih,
            hposition]
          rcases passThrough (position + 1) rest out d with ⟨outcome, after⟩
          cases outcome with
          | error e => rfl
          | ok out' => simp only [List.cons_append, List.append_assoc]

/-- Isolated stages do the same in contexts that agree. -/
theorem passThrough_agree {count ahead : Nat} {stages : List Stage}
    (hisolated : ∀ s ∈ stages, s.directive.Isolated) (position : Nat)
    (hcount : position + stages.length ≤ count) {c c' : Context}
    (h : Context.Agree count ahead c c') (rows : List Row) :
    ∃ outcome next d d' trace, passThrough position stages rows c = (outcome, next, d, trace) ∧
      passThrough (position + ahead) stages rows c' = (outcome, next, d', trace.ahead ahead) ∧
      Context.Agree count ahead d d' := by
  induction stages generalizing position rows c c' with
  | nil => exact ⟨_, _, _, _, _, rfl, rfl, h⟩
  | cons s rest ih =>
      obtain ⟨hs, hrest⟩ := List.forall_mem_cons.mp hisolated
      rw [List.length_cons] at hcount
      have hposition : position < count := by omega
      obtain ⟨outcome, next, d, d', events, hexecute, hexecute', hagree⟩ :=
        Stage.execute_agree hs h hposition rows
      cases outcome with
      | error e =>
          rw [passThrough_of_error hexecute, passThrough_of_error hexecute']
          exact ⟨_, _, _, _, _, rfl, by rw [Trace.ahead_atStage], hagree⟩
      | ok out =>
          obtain ⟨outcome, last, l, l', trace, hpass, hpass', hagree⟩ :=
            ih hrest (position + 1) (by omega) hagree out
          rw [Nat.add_right_comm] at hpass'
          rw [passThrough_of_ok hexecute, passThrough_of_ok hexecute', hpass, hpass']
          exact ⟨_, _, _, _, _, rfl, by rw [Trace.ahead_append, Trace.ahead_atStage], hagree⟩

/-- Stages that stand elsewhere do not notice. -/
theorem passThrough_apart {count ahead : Nat} {c : Context} (stages : List Stage) (position : Nat)
    (hapart : ∀ k < count, ∀ i < stages.length, k + ahead ≠ position + i) {c' : Context}
    (h : Context.Agree count ahead c c') (rows : List Row) :
    Context.Agree count ahead c (passThrough position stages rows c').2.2.1 := by
  induction stages generalizing position rows c' with
  | nil => exact h
  | cons s rest ih =>
      rw [List.length_cons] at hapart
      rcases hexecute : s.execute position rows c' with ⟨outcome, next, d, events⟩
      have hagree := Stage.execute_apart hexecute h fun k hk => hapart k hk 0 (Nat.succ_pos _)
      cases outcome with
      | error e =>
          rw [passThrough_of_error hexecute]
          exact hagree
      | ok out =>
          rw [passThrough_of_ok hexecute]
          apply ih (position + 1) _ hagree out
          intro k hk i hi
          rw [Nat.add_assoc, Nat.add_comm 1]
          exact hapart k hk (i + 1) (Nat.succ_lt_succ hi)

/-- The pipeline is the two halves one after the other: their stages are its stages, and each half
has a context that agrees with that of the pipeline on its own stages. -/
structure Splits (p first second : Pipeline) : Prop where
  stages : p.stages = first.stages ++ second.stages
  isolated : ∀ s ∈ p.stages, s.directive.Isolated
  agreesFirst : Context.Agree first.stages.length 0 first.context p.context
  agreesSecond : Context.Agree second.stages.length first.stages.length second.context p.context

namespace Splits

variable {p first second first' second' : Pipeline} {rows : List Row} {isLast : Bool}
  {trace : Trace}

theorem isolated_first (h : Splits p first second) :
    ∀ s ∈ first.stages, s.directive.Isolated := by
  intro s hs
  apply h.isolated
  rw [h.stages]
  exact List.mem_append_left _ hs

theorem isolated_second (h : Splits p first second) :
    ∀ s ∈ second.stages, s.directive.Isolated := by
  intro s hs
  apply h.isolated
  rw [h.stages]
  exact List.mem_append_right _ hs

/-- The first half executes a batch alone as it does in the pipeline. -/
theorem passThrough_first (h : Splits p first second) (rows : List Row) (isLast : Bool) :
    ∃ outcome next d d' trace,
      passThrough 0 first.stages rows (first.context.beginBatch isLast) =
        (outcome, next, d, trace) ∧
      passThrough 0 first.stages rows (p.context.beginBatch isLast) =
        (outcome, next, d', trace) ∧
      Context.Agree first.stages.length 0 d d' ∧
      Context.Agree second.stages.length first.stages.length
        (second.context.beginBatch isLast) d' := by
  obtain ⟨outcome, next, d, d', trace, hfirst, hp, hagree⟩ :=
    passThrough_agree h.isolated_first 0 (Nat.le_of_eq (Nat.zero_add _))
      (h.agreesFirst.beginBatch isLast) rows
  have htrace : trace.ahead 0 = trace := List.map_id' trace
  rw [htrace] at hp
  have hsecond := passThrough_apart first.stages 0 (by omega)
    (h.agreesSecond.beginBatch isLast) rows
  rw [show passThrough 0 first.stages rows (p.context.beginBatch isLast) = _ from hp] at hsecond
  exact ⟨outcome, next, d, d', trace, hfirst, hp, hagree, hsecond⟩

/-- A batch that the first half fails on, the pipeline fails on in the same way. -/
theorem executeBatch_of_error {e : DirectiveError} (h : Splits p first second)
    (hfirst : first.executeBatch rows isLast = (.error e, first', trace)) :
    ∃ p', p.executeBatch rows isLast = (.error e, p', trace) := by
  obtain ⟨outcome, next, d, d', trace', hpass, hpass', -, -⟩ := h.passThrough_first rows isLast
  unfold executeBatch at hfirst ⊢
  rw [hpass] at hfirst
  cases hfirst
  rw [h.stages, passThrough_append, hpass']
  exact ⟨_, rfl⟩

/-- A batch that the first half passes on is in the pipeline what it is to the second half. -/
theorem executeBatch_of_ok {out : List Row} (h : Splits p first second)
    (hfirst : first.executeBatch rows isLast = (.ok out, first', trace))
    {outcome : Except DirectiveError (List Row)} {more : Trace}
    (hsecond : second.executeBatch out isLast = (outcome, second', more)) :
    ∃ p', p.executeBatch rows isLast =
        (outcome, p', trace ++ more.ahead first.stages.length) ∧ Splits p' first' second' := by
  obtain ⟨_, next, d, d', trace', hpass, hpass', hagree, hsecondAgree⟩ :=
    h.passThrough_first rows isLast
  obtain ⟨outcome', last, l, l', more', hlast, hlast', hlastAgree⟩ :=
    passThrough_agree h.isolated_second 0 (Nat.le_of_eq (Nat.zero_add _))
      hsecondAgree out
  rw [Nat.zero_add] at hlast'
  have hnextKeeps := passThrough_keeps 0 first.stages rows (first.context.beginBatch isLast)
  rw [hpass] at hnextKeeps
  have hlastKeeps := passThrough_keeps 0 second.stages out (second.context.beginBatch isLast)
  rw [hlast] at hlastKeeps
  -- The second half has not touched what the first one keeps in memory.
  have hfirstAgree := passThrough_apart second.stages first.stages.length (by omega)
    hagree out
  rw [hlast'] at hfirstAgree
  unfold executeBatch at hfirst hsecond
  rw [hpass] at hfirst
  rw [hlast] at hsecond
  cases hfirst
  cases hsecond
  have hexecute : p.executeBatch rows isLast = (outcome,
      { p with stages := next ++ last, context := l'.endBatch },
      trace ++ more.ahead first.stages.length) := by
    unfold executeBatch
    rw [h.stages, passThrough_append, hpass', Nat.zero_add]
    simp only [hlast']
  have hkeeps := p.executeBatch_keeps rows isLast
  rw [hexecute] at hkeeps
  refine ⟨_, hexecute, rfl, Stage.directives_of_lasting hkeeps h.isolated, ?_, ?_⟩
  · rw [Stage.length_of_lasting hnextKeeps]
    exact hfirstAgree.endBatch
  · rw [Stage.length_of_lasting hlastKeeps, Stage.length_of_lasting hnextKeeps]
    exact hlastAgree.endBatch

/-- If all batches pass the pipeline, they pass the first half, and what it makes of them passes the
second. -/
theorem feed_halves {batches outs : List (List Row × Bool)} {p' : Pipeline}
    (h : Splits p first second) (hfeed : p.feed batches = (.ok outs, p', trace)) :
    ∃ mid first' second' early late, first.feed batches = (.ok mid, first', early) ∧
      second.feed mid = (.ok outs, second', late) ∧ Splits p' first' second' := by
  induction batches generalizing p first second outs trace with
  | nil =>
      cases hfeed
      exact ⟨_, _, _, _, _, rfl, rfl, h⟩
  | cons batch rest ih =>
      obtain ⟨rows, isLast⟩ := batch
      obtain ⟨out, outs', q, _, _, hexecute, hrest, rfl, -⟩ := feed_cons_eq_ok hfeed
      rcases hfirst : first.executeBatch rows isLast with ⟨outcome, first₁, trace₁⟩
      cases outcome with
      | error e =>
          obtain ⟨q', hfails⟩ := h.executeBatch_of_error hfirst
          rw [hexecute] at hfails
          cases hfails
      | ok between =>
          rcases hsecond : second.executeBatch between isLast with ⟨outcome, second₁, trace₂⟩
          obtain ⟨q', hjoined, hsplits⟩ := h.executeBatch_of_ok hfirst hsecond
          rw [hexecute] at hjoined
          cases hjoined
          obtain ⟨mid, first', second', early, late, hmid, houts, hlast⟩ := ih hsplits hrest
          refine ⟨(between, isLast) :: mid, first', second', trace₁ ++ early,
            trace₂ ++ late, ?_, ?_, hlast⟩
          · rw [feed_of_ok hfirst, hmid]
            rfl
          · rw [feed_of_ok hsecond, houts]
            rfl

/-- If all batches pass the two halves one after the other, they pass the pipeline. -/
theorem feed_joined {batches mid outs : List (List Row × Bool)} (h : Splits p first second)
    (hfirst : (first.feed batches).1 = .ok mid) (hsecond : (second.feed mid).1 = .ok outs) :
    (p.feed batches).1 = .ok outs := by
  induction batches generalizing p first second mid outs with
  | nil =>
      cases hfirst
      exact hsecond
  | cons batch rest ih =>
      obtain ⟨rows, isLast⟩ := batch
      rcases hexecute : first.executeBatch rows isLast with ⟨outcome, first₁, trace₁⟩
      cases outcome with
      | error e =>
          rw [feed_of_error hexecute] at hfirst
          cases hfirst
      | ok between =>
          rw [feed_of_ok hexecute] at hfirst
          obtain ⟨mid', hmid, rfl⟩ := Outcome.map_eq_ok.mp hfirst
          rcases hexecute' : second.executeBatch between isLast with ⟨outcome, second₁, trace₂⟩
          obtain ⟨q, hjoined, hsplits⟩ := h.executeBatch_of_ok hexecute hexecute'
          cases outcome with
          | error e =>
              rw [feed_of_error hexecute'] at hsecond
              cases hsecond
          | ok out =>
              rw [feed_of_ok hexecute'] at hsecond
              obtain ⟨outs', houts, rfl⟩ := Outcome.map_eq_ok.mp hsecond
              rw [feed_of_ok hjoined]
              exact congrArg (Except.map _) (ih hsplits hmid houts)

end Splits

/-- Stages in the environment of a pipeline, with nothing in memory. -/
def withStages (p : Pipeline) (stages : List Stage) : Pipeline := beginRun { p with stages }

/-- Feeds batches to a pipeline of the first stage alone, what it makes of them to one of the second
stage alone, and so on. -/
def inSequence (p : Pipeline) : List Stage → List (List Row × Bool) →
    Except DirectiveError (List (List Row × Bool))
  | [], batches => .ok batches
  | s :: rest, batches => ((p.withStages [s]).feed batches).1.bind (p.inSequence rest)

theorem splits_withStages (p : Pipeline) {s : Stage} {rest : List Stage}
    (h : ∀ t ∈ s :: rest, t.directive.Isolated) :
    Splits (p.withStages (s :: rest)) (p.withStages [s]) (p.withStages rest) :=
  ⟨rfl, h, Context.agree_fresh _, Context.agree_fresh _⟩

/-- Nothing happens to batches where there are no stages. -/
theorem feed_of_stages_nil {p : Pipeline} (h : p.stages = []) (batches : List (List Row × Bool)) :
    ∃ p', p.feed batches = (.ok batches, p', []) ∧ p'.stages = [] := by
  induction batches generalizing p with
  | nil => exact ⟨p, rfl, h⟩
  | cons batch rest ih =>
      obtain ⟨rows, isLast⟩ := batch
      have hexecute : p.executeBatch rows isLast = (.ok rows,
          { p with stages := [], context := (p.context.beginBatch isLast).endBatch }, []) := by
        rw [executeBatch, h]
        rfl
      obtain ⟨p', hrest, hstages⟩ := ih (p := { p with
        stages := [], context := (p.context.beginBatch isLast).endBatch }) rfl
      rw [feed_of_ok hexecute, hrest]
      exact ⟨p', rfl, hstages⟩

/-- Batches pass stages together exactly if they pass them one after another, and they become the
same. -/
theorem feed_withStages_eq_ok (p : Pipeline) {stages : List Stage}
    (hisolated : ∀ s ∈ stages, s.directive.Isolated) (batches outs : List (List Row × Bool)) :
    ((p.withStages stages).feed batches).1 = .ok outs ↔ p.inSequence stages batches = .ok outs := by
  induction stages generalizing batches outs with
  | nil =>
      obtain ⟨p', hfeed, -⟩ := feed_of_stages_nil (p := p.withStages []) rfl batches
      rw [hfeed]
      exact Iff.rfl
  | cons s rest ih =>
      have hsplits := p.splits_withStages hisolated
      have ih := ih (List.forall_mem_cons.mp hisolated).2
      rw [inSequence]
      constructor
      · intro h
        rcases hfeed : (p.withStages (s :: rest)).feed batches with ⟨outcome, p', trace⟩
        rw [hfeed] at h
        subst h
        obtain ⟨mid, _, _, _, _, hfirst, hsecond, -⟩ := hsplits.feed_halves hfeed
        rw [hfirst]
        exact (ih mid outs).mp (by rw [hsecond])
      · intro h
        cases hfirst : ((p.withStages [s]).feed batches).1 with
        | error e =>
            rw [hfirst] at h
            cases h
        | ok mid =>
            rw [hfirst] at h
            exact hsplits.feed_joined hfirst ((ih mid outs).mpr h)

theorem executions_single {p p' : Pipeline} {s : Stage} (h : p.stages = [s]) {rows : List Row}
    {isLast : Bool} {outcome : Except DirectiveError (List Row)} {trace : Trace}
    (hexecute : p.executeBatch rows isLast = (outcome, p', trace)) :
    trace.executions = if s.isDestroyed then [] else [0] := by
  rcases hstage : s.execute 0 rows (p.context.beginBatch isLast) with ⟨result, next, d, events⟩
  have hexecutions := Stage.executions_execute hstage
  unfold executeBatch at hexecute
  rw [h] at hexecute
  cases result with
  | error e =>
      rw [passThrough_of_error hstage] at hexecute
      cases hexecute
      exact hexecutions
  | ok out =>
      rw [passThrough_of_ok hstage] at hexecute
      cases hexecute
      rw [Trace.executions_append, hexecutions]
      exact List.append_nil _

/-- After some batches have passed all stages, the next one fails at some stage. Then it is the
first one that fails alone, on what the stages before it make of the batches, and no other works
after it. -/
theorem executeBatch_withStages_eq_error (p : Pipeline) {stages : List Stage}
    (hisolated : ∀ s ∈ stages, s.directive.Isolated) {done outs : List (List Row × Bool)}
    {rows : List Row} {isLast : Bool} {p' last : Pipeline} {early late : Trace}
    {e : DirectiveError} (hdone : (p.withStages stages).feed done = (.ok outs, p', early))
    (hfails : p'.executeBatch rows isLast = (.error e, last, late)) :
    ∃ j s mids, stages[j]? = some s ∧
      p.inSequence (stages.take j) (done ++ [(rows, isLast)]) = .ok mids ∧
      ((p.withStages [s]).feed mids).1 = .error e ∧
      late.executions = List.range j ++ if s.isDestroyed then [] else [j] := by
  induction stages generalizing done outs rows p' last early late with
  | nil =>
      obtain ⟨q, hfeed, hstages⟩ := feed_of_stages_nil (p := p.withStages []) rfl done
      rw [hfeed] at hdone
      cases hdone
      rw [executeBatch, hstages] at hfails
      cases hfails
  | cons s rest ih =>
      have hsplits := p.splits_withStages hisolated
      obtain ⟨mid, first, second, trace₁, trace₂, hfirst, hsecond, hsplits⟩ :=
        hsplits.feed_halves hdone
      have hkeeps := feed_keeps done (p.withStages [s])
      rw [hfirst] at hkeeps
      rcases hexecute : first.executeBatch rows isLast with ⟨outcome, first', trace⟩
      cases outcome with
      | error e' =>
          obtain ⟨q, hjoined⟩ := hsplits.executeBatch_of_error hexecute
          rw [hfails] at hjoined
          cases hjoined
          refine ⟨0, s, done ++ [(rows, isLast)], rfl, rfl, ?_, ?_⟩
          · rw [feed_append hfirst, feed_of_error hexecute]
            rfl
          · obtain ⟨s', hs', hlasting⟩ := List.map_eq_singleton_iff.mp hkeeps
            rw [executions_single hs' hexecute, (Prod.mk.inj hlasting).2]
            rfl
      | ok between =>
          rcases hexecute' : second.executeBatch between isLast with ⟨outcome, second', more⟩
          obtain ⟨q, hjoined, -⟩ := hsplits.executeBatch_of_ok hexecute hexecute'
          rw [hfails] at hjoined
          cases hjoined
          obtain ⟨j, t, mids, hj, hmids, halone, hexecutions⟩ :=
            ih (List.forall_mem_cons.mp hisolated).2 hsecond hexecute'
          refine ⟨j + 1, t, mids, hj, ?_, halone, ?_⟩
          · rw [List.take_succ_cons, inSequence, feed_append hfirst, feed_of_ok hexecute]
            exact hmids
          · have hlength : first.stages.length = 1 := Stage.length_of_lasting hkeeps
            rw [Trace.executions_append, executions_executeBatch hexecute, hlength,
              Trace.executions_ahead, hexecutions, List.map_append, List.range_succ_eq_map (n := j),
              ← List.append_assoc]
            split <;> rfl

/-- Batch `i` fails at stage `j`, which is `s`, and nothing fails before that: the batches in front
of it pass all stages one after another, and with it `s` is the first stage that fails alone. -/
structure FailsFirst (p : Pipeline) (batches : List (List Row × Bool)) (i j : Nat) (s : Stage)
    (e : DirectiveError) : Prop where
  batch : i < batches.length
  stage : p.stages[j]? = some s
  passed : ∃ outs, p.inSequence p.stages (batches.take i) = .ok outs
  fails : ∃ mids, p.inSequence (p.stages.take j) (batches.take (i + 1)) = .ok mids ∧
    ((p.withStages [s]).feed mids).1 = .error e

/-- A run is the sequential composition of the stages, each with a memory of its own. It succeeds
exactly if every stage alone does on what the one before it makes of the batches, and joins what the
last one makes of them. Otherwise it fails like the first stage that fails on the first batch that
any fails on, and executes nothing after that. -/
theorem run_isolated (p : Pipeline) (hisolated : ∀ s ∈ p.stages, s.directive.Isolated)
    (batches : List (List Row)) :
    (∀ rows, (p.run batches).1 = .ok rows ↔
      ∃ outs, p.inSequence p.stages (runBatches batches) = .ok outs ∧
        outs.flatMap Prod.fst = rows) ∧
    ∀ e, (p.run batches).1 = .error e → ∃ i j s, p.FailsFirst (runBatches batches) i j s e ∧
      (p.run batches).2.2.executions = (List.replicate i (List.range p.size)).flatten ++
        List.range j ++ if s.isDestroyed then [] else [j] := by
  have hover : p.beginRun = p.withStages p.stages := rfl
  have hpasses := p.feed_withStages_eq_ok hisolated
  rw [run_eq_feed, hover]
  constructor
  · intro rows
    constructor
    · intro h
      obtain ⟨outs, houts, hrows⟩ := Outcome.map_eq_ok.mp h
      exact ⟨outs, (hpasses _ _).mp houts, hrows⟩
    · rintro ⟨outs, houts, rfl⟩
      exact congrArg (Except.map _) ((hpasses _ _).mpr houts)
  · intro e h
    rcases hfeed : (p.withStages p.stages).feed (runBatches batches) with ⟨outcome, last, trace⟩
    rw [hfeed] at h
    cases outcome with
    | ok outs => cases h
    | error e' =>
        cases h
        obtain ⟨done, rows, isLast, rest, outs, p', early, late, hbatches, hdone, hfails, rfl⟩ :=
          feed_eq_error hfeed
        obtain ⟨j, s, mids, hj, hmids, halone, hexecutions⟩ :=
          p.executeBatch_withStages_eq_error hisolated hdone hfails
        refine ⟨done.length, j, s, ⟨?_, hj, ⟨outs, ?_⟩, ⟨mids, ?_, halone⟩⟩, ?_⟩
        · rw [hbatches, List.length_append, List.length_cons]
          omega
        · rw [hbatches, List.take_left]
          exact (hpasses _ _).mp (by rw [hdone])
        · rw [hbatches, List.take_length_add_append]
          exact hmids
        · rw [Trace.executions_append, executions_feed hdone, hexecutions, List.append_assoc]
          rfl

/-- Two directives that use the same keys. The second one reads a column of durations that the first
one does not look at. -/
def twoAggregates : Pipeline where
  table := .empty
  stages :=
    [⟨"aggregate-stats", default, aggregateStats,
        (⟨"size", "wait", "sizes", "waits", .mb, .seconds⟩ : AggregateStats), false⟩,
      ⟨"aggregate-stats", default, aggregateStats,
        (⟨"size", "delay", "sizes", "delays", .mb, .seconds⟩ : AggregateStats), false⟩]
  context := .fresh .testing

/-- Two batches, of which the first one holds a duration that nobody can read. -/
def unreadableDelay : List (List Row) := [[.ofList [("delay", .raw "soon")]], []]

theorem run_isolated_twoAggregates :
    ∃ e, (∀ s ∈ twoAggregates.stages, s.directive.Isolated) ∧
      (twoAggregates.run unreadableDelay).1 = .error e ∧
      ∃ i j s, twoAggregates.FailsFirst (runBatches unreadableDelay) i j s e ∧
        (twoAggregates.run unreadableDelay).2.2.executions =
          (List.replicate i (List.range twoAggregates.size)).flatten ++
            List.range j ++ if s.isDestroyed then [] else [j] := by
  have hisolated : ∀ s ∈ twoAggregates.stages, s.directive.Isolated :=
    List.forall_mem_cons.mpr ⟨aggregateStats_isolated,
      List.forall_mem_singleton.mpr aggregateStats_isolated⟩
  have hfails : (twoAggregates.run unreadableDelay).1 =
      .error (.execution "aggregate-stats" "delay"
        "Failed to parse time duration value 'soon': invalid time duration format: 'soon'") := rfl
  exact ⟨_, hisolated, hfails, (run_isolated twoAggregates hisolated unreadableDelay).2 _ hfails⟩

end Pipeline

end RowRecipe
