import RowRecipe.Pipeline.Basic
import RowRecipe.Proofs.Directive.Isolation

/-!
Feeding batches to a pipeline. A run joins the rows that its batches give, but what passes from one
pipeline to another are the batches themselves, each with whether it is the last one. So a pipeline
is fed marked batches here, and a run is one way to do so. What a feeding executes can be read off
its trace: all stages for every batch, up to the stage that fails.
-/

namespace RowRecipe

/-- The positions of the stages whose directives were executed, in the order of the trace. -/
def Trace.executions (trace : Trace) : List Nat :=
  trace.filterMap fun p => if p.2 = .executed then some p.1 else none

namespace Trace

theorem executions_append (first second : Trace) :
    executions (first ++ second) = executions first ++ executions second :=
  List.filterMap_append

/-- Notes are no executions. -/
theorem executions_noted (position : Nat) (notes : List String) :
    executions (atStage position (notes.map .noted)) = [] := by
  induction notes with
  | nil => rfl
  | cons line rest ih => exact ih

end Trace

namespace Stage

/-- What executing batches leaves as it is. -/
def lasting (s : Stage) : Directive × Bool := (s.directive, s.isDestroyed)

theorem length_of_lasting {stages next : List Stage}
    (h : next.map lasting = stages.map lasting) : next.length = stages.length := by
  simpa only [List.length_map] using congrArg List.length h

/-- What holds of all directives still does. -/
theorem directives_of_lasting {stages next : List Stage} {P : Directive → Prop}
    (h : next.map lasting = stages.map lasting)
    (hall : ∀ s ∈ stages, P s.directive) : ∀ s ∈ next, P s.directive := by
  intro s hs
  have hmem : s.lasting ∈ stages.map lasting := by
    rw [← h]
    exact List.mem_map_of_mem hs
  obtain ⟨s', hs', heq⟩ := List.mem_map.mp hmem
  rw [← (Prod.mk.inj heq).1]
  exact hall s' hs'

variable {owner : Nat} {rows : List Row} {c d : Context} {s next : Stage} {events : List Event}

/-- A stage executes its directive unless that is destroyed. -/
theorem executions_execute {outcome : Except DirectiveError (List Row)}
    (h : s.execute owner rows c = (outcome, next, d, events)) :
    Trace.executions (.atStage owner events) = if s.isDestroyed then [] else [owner] := by
  unfold execute at h
  by_cases hdestroyed : s.isDestroyed
  · rw [if_pos hdestroyed] at h ⊢
    cases h
    rfl
  · rw [if_neg hdestroyed] at h ⊢
    cases h
    exact congrArg (owner :: ·) (Trace.executions_noted owner _)

/-- A stage that passes rows on is not destroyed. -/
theorem isDestroyed_of_execute {out : List Row}
    (h : s.execute owner rows c = (.ok out, next, d, events)) : s.isDestroyed = false := by
  unfold execute at h
  by_cases hdestroyed : s.isDestroyed
  · rw [if_pos hdestroyed] at h
    cases h
  · exact Bool.eq_false_iff.mpr hdestroyed

end Stage

namespace Pipeline

section Steps

variable {position : Nat} {s next : Stage} {rest : List Stage} {rows out : List Row}
  {c d : Context} {events : List Event}

theorem passThrough_of_error {e : DirectiveError}
    (h : s.execute position rows c = (.error e, next, d, events)) :
    passThrough position (s :: rest) rows c =
      (.error e, next :: rest, d, .atStage position events) := by
  simp only [passThrough, h]

theorem passThrough_of_ok (h : s.execute position rows c = (.ok out, next, d, events)) :
    passThrough position (s :: rest) rows c =
      ((passThrough (position + 1) rest out d).1,
        next :: (passThrough (position + 1) rest out d).2.1,
        (passThrough (position + 1) rest out d).2.2.1,
        .atStage position events ++ (passThrough (position + 1) rest out d).2.2.2) := by
  simp only [passThrough, h]

end Steps

/-- Stages keep their directives, and stay destroyed or not, while batches pass through them. -/
theorem passThrough_keeps (position : Nat) (stages : List Stage) (rows : List Row) (c : Context) :
    (passThrough position stages rows c).2.1.map Stage.lasting =
      stages.map Stage.lasting := by
  induction stages generalizing position rows c with
  | nil => rfl
  | cons s rest ih =>
      rcases hexecute : s.execute position rows c with ⟨outcome, next, d, events⟩
      obtain ⟨hdirective, hdestroyed⟩ := Stage.execute_keeps hexecute
      have hlasting : next.lasting = s.lasting := by
        rw [Stage.lasting, hdirective, hdestroyed, Stage.lasting]
      cases outcome with
      | error e =>
          rw [passThrough_of_error hexecute, List.map_cons, List.map_cons, hlasting]
      | ok out =>
          rw [passThrough_of_ok hexecute, List.map_cons, List.map_cons, hlasting, ih]

/-- A batch that passes through all stages executes each of them once, in their order. -/
theorem executions_passThrough {position : Nat} {stages : List Stage} {rows : List Row}
    {c : Context} {out : List Row} (h : (passThrough position stages rows c).1 = .ok out) :
    (passThrough position stages rows c).2.2.2.executions =
      List.range' position stages.length := by
  induction stages generalizing position rows c with
  | nil => rfl
  | cons s rest ih =>
      rcases hexecute : s.execute position rows c with ⟨outcome, next, d, events⟩
      cases outcome with
      | error e =>
          rw [passThrough_of_error hexecute] at h
          cases h
      | ok out =>
          have halive := Stage.isDestroyed_of_execute hexecute
          rw [passThrough_of_ok hexecute] at h ⊢
          rw [Trace.executions_append, Stage.executions_execute hexecute, halive, ih h]
          rfl

/-- A pipeline of one directive does to a batch what the directive does. -/
theorem executeBatch_single {p : Pipeline} {name : String} {span : Span} {d : Directive}
    {state next : d.State} (h : p.stages = [⟨name, span, d, state, false⟩]) {rows : List Row}
    {isLast : Bool} {outcome : Except DirectiveError (List Row)} {writes : List Memory.Write}
    {notes : List String} (hexecute : d.execute rows ⟨p.context.beginBatch isLast, 0⟩ state =
      ⟨outcome, next, writes, notes⟩) :
    p.executeBatch rows isLast = (outcome,
      { p with
        stages := [⟨name, span, d, next, false⟩]
        context := ((p.context.beginBatch isLast).writeAll 0 writes).endBatch },
      .atStage 0 (.executed :: notes.map .noted)) := by
  have hstage : Stage.execute 0 rows (p.context.beginBatch isLast) ⟨name, span, d, state, false⟩ =
      (outcome, ⟨name, span, d, next, false⟩, (p.context.beginBatch isLast).writeAll 0 writes,
        .executed :: notes.map .noted) := by
    simp only [Stage.execute, hexecute]
    rfl
  unfold executeBatch
  rw [h]
  cases outcome with
  | error e => rw [passThrough_of_error hstage]
  | ok out =>
      rw [passThrough_of_ok hstage]
      simp only [passThrough, List.append_nil]

/-- Executes marked batches one after another, and gives what each of them becomes. -/
def feed : List (List Row × Bool) → Pipeline →
    Except DirectiveError (List (List Row × Bool)) × Pipeline × Trace
  | [], p => (.ok [], p, [])
  | (rows, isLast) :: rest, p =>
      match p.executeBatch rows isLast with
      | (.error e, p, trace) => (.error e, p, trace)
      | (.ok out, p, trace) =>
          let (outcome, p, more) := feed rest p
          (outcome.map ((out, isLast) :: ·), p, trace ++ more)

/-- Marks the last one of several batches. -/
def marked : List (List Row) → List (List Row × Bool)
  | [] => []
  | rows :: rest => (rows, rest.isEmpty) :: marked rest

/-- The batches that a run executes: without any, it executes an empty one. -/
def runBatches (batches : List (List Row)) : List (List Row × Bool) :=
  marked (if batches.isEmpty then [[]] else batches)

section Steps

variable {p p' : Pipeline} {rows : List Row} {isLast : Bool} {rest : List (List Row × Bool)}
  {trace : Trace}

theorem feed_of_error {e : DirectiveError}
    (h : p.executeBatch rows isLast = (.error e, p', trace)) :
    p.feed ((rows, isLast) :: rest) = (.error e, p', trace) := by
  simp only [feed, h]

theorem feed_of_ok {out : List Row} (h : p.executeBatch rows isLast = (.ok out, p', trace)) :
    p.feed ((rows, isLast) :: rest) =
      ((p'.feed rest).1.map ((out, isLast) :: ·), (p'.feed rest).2.1,
        trace ++ (p'.feed rest).2.2) := by
  simp only [feed, h]

/-- Batches pass if the first one does and the others do after it. -/
theorem feed_cons_eq_ok {outs : List (List Row × Bool)}
    (h : p.feed ((rows, isLast) :: rest) = (.ok outs, p', trace)) :
    ∃ out outs' next first more, p.executeBatch rows isLast = (.ok out, next, first) ∧
      next.feed rest = (.ok outs', p', more) ∧ outs = (out, isLast) :: outs' ∧
      trace = first ++ more := by
  rcases hexecute : p.executeBatch rows isLast with ⟨outcome, next, first⟩
  cases outcome with
  | error e =>
      rw [feed_of_error hexecute] at h
      cases h
  | ok out =>
      rw [feed_of_ok hexecute] at h
      rcases hrest : next.feed rest with ⟨outcome, last, more⟩
      rw [hrest] at h
      cases outcome with
      | error e => cases h
      | ok outs' =>
          cases h
          exact ⟨out, outs', next, first, more, rfl, hrest, rfl, rfl⟩

end Steps

theorem executeAll_eq_feed (batches : List (List Row)) (p : Pipeline) :
    p.executeAll batches =
      ((p.feed (marked batches)).1.map (List.flatMap Prod.fst), (p.feed (marked batches)).2) := by
  induction batches generalizing p with
  | nil => rfl
  | cons rows rest ih =>
      rcases hexecute : p.executeBatch rows rest.isEmpty with ⟨outcome, p', trace⟩
      cases outcome with
      | error e =>
          rw [marked, feed_of_error hexecute]
          simp only [executeAll, hexecute]
          rfl
      | ok out =>
          rw [marked, feed_of_ok hexecute]
          simp only [executeAll, hexecute, ih p']
          cases (p'.feed (marked rest)).1 <;> rfl

/-- A run feeds the batches to the pipeline with nothing in memory, and joins what they become. -/
theorem run_eq_feed (batches : List (List Row)) (p : Pipeline) :
    p.run batches =
      ((p.beginRun.feed (runBatches batches)).1.map (List.flatMap Prod.fst),
        (p.beginRun.feed (runBatches batches)).2) :=
  executeAll_eq_feed _ _

/-- Feeding goes on where it stopped. -/
theorem feed_append {done outs more : List (List Row × Bool)} {p p' : Pipeline} {trace : Trace}
    (h : p.feed done = (.ok outs, p', trace)) :
    p.feed (done ++ more) =
      ((p'.feed more).1.map (outs ++ ·), (p'.feed more).2.1, trace ++ (p'.feed more).2.2) := by
  induction done generalizing p outs trace with
  | nil =>
      cases h
      rw [List.nil_append]
      rcases p'.feed more with ⟨outcome, after⟩
      cases outcome <;> rfl
  | cons batch rest ih =>
      obtain ⟨rows, isLast⟩ := batch
      obtain ⟨out, outs', next, first, second, hexecute, hrest, rfl, rfl⟩ := feed_cons_eq_ok h
      rw [List.cons_append, feed_of_ok hexecute, ih hrest]
      rcases p'.feed more with ⟨outcome, after⟩
      cases outcome <;> simp [Except.map, List.append_assoc]

/-- A feeding that fails does so at one batch, after those before it have passed. -/
theorem feed_eq_error {batches : List (List Row × Bool)} {p p' : Pipeline} {e : DirectiveError}
    {trace : Trace} (h : p.feed batches = (.error e, p', trace)) :
    ∃ done rows isLast rest outs next first second,
      batches = done ++ (rows, isLast) :: rest ∧ p.feed done = (.ok outs, next, first) ∧
        next.executeBatch rows isLast = (.error e, p', second) ∧ trace = first ++ second := by
  induction batches generalizing p trace with
  | nil => cases h
  | cons batch rest ih =>
      obtain ⟨rows, isLast⟩ := batch
      rcases hexecute : p.executeBatch rows isLast with ⟨outcome, next, first⟩
      cases outcome with
      | error e' =>
          rw [feed_of_error hexecute] at h
          cases h
          exact ⟨[], rows, isLast, rest, [], _, [], _, rfl, rfl, hexecute, rfl⟩
      | ok out =>
          rw [feed_of_ok hexecute] at h
          rcases hrest : next.feed rest with ⟨outcome, last, more⟩
          rw [hrest] at h
          cases outcome with
          | ok outs => cases h
          | error e' =>
              cases h
              obtain ⟨done, rows', isLast', rest', outs, next', before, second, rfl, hdone,
                hfails, rfl⟩ := ih hrest
              refine ⟨(rows, isLast) :: done, rows', isLast', rest', (out, isLast) :: outs, next',
                first ++ before, second, rfl, ?_, hfails, by rw [List.append_assoc]⟩
              rw [feed_of_ok hexecute, hdone]
              rfl

theorem executeBatch_keeps (rows : List Row) (isLast : Bool) (p : Pipeline) :
    (p.executeBatch rows isLast).2.1.stages.map Stage.lasting =
      p.stages.map Stage.lasting :=
  passThrough_keeps 0 p.stages rows _

theorem feed_keeps (batches : List (List Row × Bool)) (p : Pipeline) :
    (p.feed batches).2.1.stages.map Stage.lasting =
      p.stages.map Stage.lasting := by
  induction batches generalizing p with
  | nil => rfl
  | cons batch rest ih =>
      obtain ⟨rows, isLast⟩ := batch
      have hkeeps := p.executeBatch_keeps rows isLast
      rcases hexecute : p.executeBatch rows isLast with ⟨outcome, next, first⟩
      rw [hexecute] at hkeeps
      cases outcome with
      | error e =>
          rw [feed_of_error hexecute]
          exact hkeeps
      | ok out =>
          rw [feed_of_ok hexecute]
          exact (ih next).trans hkeeps

theorem executions_executeBatch {rows out : List Row} {isLast : Bool} {p p' : Pipeline}
    {trace : Trace} (h : p.executeBatch rows isLast = (.ok out, p', trace)) :
    trace.executions = List.range p.stages.length := by
  have hpassed : (passThrough 0 p.stages rows (p.context.beginBatch isLast)).1 = .ok out :=
    congrArg Prod.fst h
  have hexecutions := executions_passThrough hpassed
  have htrace : (passThrough 0 p.stages rows (p.context.beginBatch isLast)).2.2.2 = trace :=
    congrArg (fun r => r.2.2) h
  rw [htrace] at hexecutions
  rw [hexecutions, List.range_eq_range']

/-- Batches that all pass execute all stages in their order, once for each batch. -/
theorem executions_feed {batches outs : List (List Row × Bool)} {p p' : Pipeline} {trace : Trace}
    (h : p.feed batches = (.ok outs, p', trace)) :
    trace.executions = (List.replicate batches.length (List.range p.stages.length)).flatten := by
  induction batches generalizing p outs trace with
  | nil =>
      cases h
      rfl
  | cons batch rest ih =>
      obtain ⟨rows, isLast⟩ := batch
      obtain ⟨out, outs', next, first, more, hexecute, hrest, rfl, rfl⟩ := feed_cons_eq_ok h
      have hkeeps := p.executeBatch_keeps rows isLast
      rw [hexecute] at hkeeps
      have hlength := Stage.length_of_lasting hkeeps
      rw [Trace.executions_append, executions_executeBatch hexecute, ih hrest, hlength,
        List.length_cons, List.replicate_succ, List.flatten_cons]

end Pipeline

end RowRecipe
