import Mathlib
import RowRecipe.Proofs.AggregateStats.Amounts
import RowRecipe.Proofs.Binary64.Equality
import RowRecipe.Proofs.Pipeline.Feeding
import RowRecipe.Proofs.Pipeline.Opening

/-!
The directive as a machine. A pipeline that holds the directive alone is, for those who call it, a
small machine: what is pending in both columns, and whether the last batch of the run has begun. The
pipeline keeps the pending totals in four entries of its memory; that these are what the machine
says is an invariant of every call, of those that fail too.
-/

namespace RowRecipe

universe u

namespace Totals

variable (v : View)

theorem ofView_after_keep (t : Totals) : ofView (v.after t.keep) = t := by
  simp [ofView, number, View.after, View.get?, Context.writeAll, Memory.writeAll, keep,
    Memory.write, Memory.get?_insert, Cell.int?]

theorem ofView_after_forget : ofView (v.after forget) = zero := by
  simp [ofView, number, View.after, View.get?, Context.writeAll, Memory.writeAll, forget,
    Memory.write, Memory.get?_erase, zero, Tally.zero]

/-- Pending totals are remembered for the run, so the end of a batch does not matter to them. -/
theorem ofView_endBatch (c : Context) (owner : Nat) :
    ofView ⟨c.endBatch, owner⟩ = ofView ⟨c, owner⟩ := by
  simp [ofView, number, View.get?, Context.endBatch, Memory.get?_clear]

theorem ofView_fresh (environment : Environment) (owner : Nat) :
    ofView ⟨.fresh environment, owner⟩ = zero := rfl

/-- Both sums are within the limit. -/
structure Within (t : Totals) : Prop where
  bytes : t.bytes.total ≤ Tally.limit
  time : t.time.total ≤ Tally.limit

theorem within_zero : zero.Within := ⟨Nat.zero_le _, Nat.zero_le _⟩

end Totals

namespace Pipeline

/-- What can be called between batches of rows. -/
inductive Call where
  | beginRun
  | executeBatch (rows : List Row) (isLast : Bool)

/-- Carries out a call. Only a batch has an outcome. -/
def perform : Call → Pipeline → Option (Except DirectiveError (List Row)) × Pipeline
  | .beginRun, p => (none, p.beginRun)
  | .executeBatch rows isLast, p =>
      let (outcome, p, _) := p.executeBatch rows isLast
      (some outcome, p)

/-- Carries out calls one after another; one that fails does not end them. -/
def performAll {S : Type u} {O : Type} (perform : Call → S → O × S) : List Call → S → List O × S
  | [], state => ([], state)
  | call :: rest, state =>
      let (outcome, state) := perform call state
      let (outcomes, state) := performAll perform rest state
      (outcome :: outcomes, state)

end Pipeline

namespace AggregateStats

/-- The sum of a tally, in a unit that holds so many base units. It is zero if nothing was counted. -/
def sumIn (unitSize : Nat) (t : Tally) : Binary64 :=
  if t.count = 0 then Binary64.zero false else Binary64.ofNat t.total / Binary64.ofNat unitSize

/-- Sets the column for the sum of bytes, and then that for the sum of durations. -/
def withSums (s : AggregateStats) (bytes time : Binary64) (row : Row) : Row :=
  (row.set s.byteTotalColumn (.float bytes)).set s.timeTotalColumn (.float time)

/-- The row with both sums, in the units that are asked for. -/
def sums (s : AggregateStats) (t : Totals) : Row :=
  s.withSums (sumIn s.byteUnit.factor t.bytes) (sumIn s.timeUnit.factor t.time) .empty

/-- A sum of base units is converted by dividing it, since a base unit holds one of them. -/
theorem total_eq_sumIn {U : Type} [UnitFamily U] [DecidableEq U]
    (hbase : UnitFamily.factor (UnitFamily.base : U) = 1) (t : Tally) (unit : U) :
    total t unit = sumIn (UnitFamily.factor unit) t := by
  unfold total sumIn UnitFamily.convert
  by_cases hnone : t.count = 0
  · rw [if_pos hnone, if_neg (by omega)]
  · rw [if_neg hnone, if_pos (by omega)]
    by_cases hunit : UnitFamily.base = unit
    · rw [if_pos hunit, ← hunit, hbase, Binary64.div_one]
    · rw [if_neg hunit, hbase, Binary64.mul_one]

theorem summary_eq_sums (s : AggregateStats) (t : Totals) : s.summary t = s.sums t := by
  rw [summary, total_eq_sumIn rfl, total_eq_sumIn rfl]
  rfl

/-- What is pending, and whether the last batch of the run has begun. -/
structure Machine where
  pending : Totals
  isFinal : Bool

namespace Machine

def start : Machine := ⟨.zero, false⟩

/-- One batch. A row at fault fails the batch and leaves what is pending. The last batch gives the sums of
all that was pending, and nothing is pending any more; any other batch passes on, with sums of zero. -/
def executeBatch (s : AggregateStats) (rows : List Row) (isLast : Bool) (m : Machine) :
    Except DirectiveError (List Row) × Machine :=
  let isFinal := m.isFinal || isLast
  match s.firstFault? m.pending [] rows with
  | some e => (.error e, ⟨m.pending, isFinal⟩)
  | none =>
      let pending := m.pending.plus (s.tallies rows)
      if isFinal then (.ok [s.sums pending], ⟨.zero, isFinal⟩)
      else (.ok (rows.map (s.withSums (Binary64.zero false) (Binary64.zero false))),
        ⟨pending, isFinal⟩)

def perform (s : AggregateStats) :
    Pipeline.Call → Machine → Option (Except DirectiveError (List Row)) × Machine
  | .beginRun, _ => (none, start)
  | .executeBatch rows isLast, m =>
      let (outcome, m) := m.executeBatch s rows isLast
      (some outcome, m)

/-- The pipeline holds the directive alone, and its context says what the machine says. -/
structure Represents (s : AggregateStats) (m : Machine) (p : Pipeline) : Prop where
  stages : ∃ name span, p.stages = [⟨name, span, aggregateStats, s, false⟩]
  pending : Totals.ofView ⟨p.context, 0⟩ = m.pending
  isFinal : p.context.isFinal = m.isFinal

variable {s : AggregateStats} {m : Machine} {p : Pipeline}

theorem Represents.beginRun (h : Represents s m p) : Represents s start p.beginRun :=
  ⟨h.stages, Totals.ofView_fresh _ _, rfl⟩

/-- The directive executes as the machine does; what it writes makes the memory say what the machine
says after the batch. -/
theorem execute_eq (s : AggregateStats) {view : View} {isLast : Bool}
    (hpending : Totals.ofView view = m.pending)
    (hfinal : view.context.isFinal = (m.isFinal || isLast)) (rows : List Row) :
    ∃ writes, aggregateStats.execute rows view s =
        ⟨(m.executeBatch s rows isLast).1, s, writes, []⟩ ∧
      Totals.ofView (view.after writes) = (m.executeBatch s rows isLast).2.pending := by
  simp only [aggregateStats, AggregateStats.execute, executeBatch, hpending, s.foldlM_addRow,
    hfinal, summary_eq_sums]
  cases s.firstFault? m.pending [] rows with
  | some e => exact ⟨[], rfl, hpending⟩
  | none =>
      cases m.isFinal || isLast with
      | true => exact ⟨_, rfl, Totals.ofView_after_forget view⟩
      | false => exact ⟨_, rfl, Totals.ofView_after_keep view _⟩

theorem executeBatch_isFinal (rows : List Row) (isLast : Bool) (m : Machine) :
    (m.executeBatch s rows isLast).2.isFinal = (m.isFinal || isLast) := by
  unfold executeBatch
  cases s.firstFault? m.pending [] rows with
  | some e => rfl
  | none => cases m.isFinal || isLast <;> rfl

/-- A batch does to the pipeline what it does to the machine. -/
theorem Represents.executeBatch (h : Represents s m p) (rows : List Row) (isLast : Bool) :
    ∃ p' trace, p.executeBatch rows isLast = ((m.executeBatch s rows isLast).1, p', trace) ∧
      Represents s (m.executeBatch s rows isLast).2 p' := by
  obtain ⟨name, span, hstages⟩ := h.stages
  have hfinal : (p.context.beginBatch isLast).isFinal = (m.isFinal || isLast) := by
    rw [← h.isFinal]
    rfl
  -- The flag and the number of batches do not matter to what is kept.
  have hkept : Totals.ofView ⟨p.context.beginBatch isLast, 0⟩ = m.pending := h.pending
  obtain ⟨writes, hexecute, hpending⟩ := execute_eq s hkept hfinal rows
  refine ⟨_, _, Pipeline.executeBatch_single hstages hexecute, ⟨name, span, rfl⟩, ?_, ?_⟩
  · rw [Totals.ofView_endBatch]
    exact hpending
  · rw [executeBatch_isFinal]
    exact hfinal

theorem Represents.perform (h : Represents s m p) (call : Pipeline.Call) :
    (Pipeline.perform call p).1 = (Machine.perform s call m).1 ∧
      Represents s (Machine.perform s call m).2 (Pipeline.perform call p).2 := by
  cases call with
  | beginRun => exact ⟨rfl, h.beginRun⟩
  | executeBatch rows isLast =>
      obtain ⟨p', trace, hexecute, hnext⟩ := h.executeBatch rows isLast
      simp only [Pipeline.perform, hexecute]
      exact ⟨rfl, hnext⟩

theorem Represents.performAll (h : Represents s m p) (calls : List Pipeline.Call) :
    (Pipeline.performAll Pipeline.perform calls p).1 =
        (Pipeline.performAll (Machine.perform s) calls m).1 ∧
      Represents s (Pipeline.performAll (Machine.perform s) calls m).2
        (Pipeline.performAll Pipeline.perform calls p).2 := by
  induction calls generalizing m p with
  | nil => exact ⟨rfl, h⟩
  | cons call rest ih =>
      obtain ⟨houtcome, hnext⟩ := h.perform call
      obtain ⟨houtcomes, hlast⟩ := ih hnext
      refine ⟨?_, hlast⟩
      simp only [Pipeline.performAll, houtcome, houtcomes]

/-- The rows of a batch are all in order exactly if they can be added to what is pending. -/
theorem firstFault?_eq_none_iff (h : m.pending.Within) (s : AggregateStats) (rows : List Row) :
    s.firstFault? m.pending [] rows = none ↔ s.Accepts m.pending rows :=
  have hnil : s.Accepts m.pending [] :=
    ⟨s.byteSource.accepts_nil h.bytes, s.timeSource.accepts_nil h.time⟩
  s.firstFault?_eq_none_iff hnil rows

theorem executeBatch_within (h : m.pending.Within) (s : AggregateStats) (rows : List Row)
    (isLast : Bool) : (m.executeBatch s rows isLast).2.pending.Within := by
  unfold executeBatch
  cases hfault : s.firstFault? m.pending [] rows with
  | some e => exact h
  | none =>
      have haccepts := (firstFault?_eq_none_iff h s rows).mp hfault
      cases m.isFinal || isLast with
      | true => exact Totals.within_zero
      | false => exact ⟨haccepts.bytes.fits, haccepts.time.fits⟩

theorem performAll_within (h : m.pending.Within) (s : AggregateStats)
    (calls : List Pipeline.Call) : (Pipeline.performAll (perform s) calls m).2.pending.Within := by
  induction calls generalizing m with
  | nil => exact h
  | cons call rest ih =>
      cases call with
      | beginRun => exact ih Totals.within_zero
      | executeBatch rows isLast => exact ih (executeBatch_within h s rows isLast)

end Machine

/-- The row with both sums has a column for each of them, and a single one for the duration if both have
the same name. -/
theorem sums_toList (s : AggregateStats) (t : Totals) :
    (s.sums t).toList =
      if s.byteTotalColumn = s.timeTotalColumn then
        [(s.timeTotalColumn, .float (sumIn s.timeUnit.factor t.time))]
      else
        [(s.byteTotalColumn, .float (sumIn s.byteUnit.factor t.bytes)),
          (s.timeTotalColumn, .float (sumIn s.timeUnit.factor t.time))] := by
  by_cases hname : s.byteTotalColumn = s.timeTotalColumn
  · simp [sums, withSums, Row.set, Row.empty, Row.toList, OrderedMap.insert, OrderedMap.empty,
      Entries.insert, hname]
  · simp [sums, withSums, Row.set, Row.empty, Row.toList, OrderedMap.insert, OrderedMap.empty,
      Entries.insert, hname]

/-- A compiled pipeline of the directive alone begins as the machine does. -/
theorem represents_of_compile {source : String} {registry : Registry} {settings : Settings}
    {p : Pipeline} {group : TokenGroup}
    (hregistry : registry.get? directiveName = some aggregateStats)
    (hcompile : (Pipeline.compile source registry settings).1 = .ok p)
    (hgroups : p.table.groups = [group]) (hname : group.directiveName? = some directiveName) :
    ∃ args s, Arguments.bind usage group = .ok args ∧ (prepare args start).outcome = .ok () ∧
      s = (prepare args start).state ∧ Machine.Represents s .start p := by
  obtain ⟨-, hopens, hcontext⟩ := Pipeline.compile_opens hcompile
  rw [hgroups] at hopens
  obtain ⟨stage, rest, hstage, hrest, hstages⟩ := List.forall₂_cons_left_iff.mp hopens
  obtain rfl := List.forall₂_nil_left_iff.mp hrest
  obtain ⟨stageName, span, d, state, destroyed⟩ := stage
  obtain rfl : directiveName = stageName := Option.some.inj (hname.symm.trans hstage.name)
  obtain rfl : aggregateStats = d := Option.some.inj (hregistry.symm.trans hstage.directive)
  obtain rfl : destroyed = false := hstage.alive
  obtain ⟨args, hbind, houtcome, hstate⟩ := hstage.prepared
  refine ⟨args, state, hbind, houtcome, hstate, ⟨_, _, hstages⟩, ?_, ?_⟩
  · rw [hcontext]
    exact Totals.ofView_fresh _ _
  · rw [hcontext]
    rfl

/-- A compiled pipeline of the directive alone refines the machine, along any calls. Batches have
the outcomes that the machine gives them, and after each call the memory of the pipeline says what
the machine says. A batch fails exactly if some cell of it cannot be read or a sum passes the limit.
The row that ends a run has the sums, divided by what the units asked for hold, or zero where no value
was counted. -/
theorem refines_machine {source : String} {registry : Registry} {settings : Settings}
    {p : Pipeline} {group : TokenGroup}
    (hregistry : registry.get? directiveName = some aggregateStats)
    (hcompile : (Pipeline.compile source registry settings).1 = .ok p)
    (hgroups : p.table.groups = [group]) (hname : group.directiveName? = some directiveName) :
    ∃ args s, Arguments.bind usage group = .ok args ∧ (prepare args start).outcome = .ok () ∧
      s = (prepare args start).state ∧
      (∀ calls : List Pipeline.Call,
        let pipeline := Pipeline.performAll Pipeline.perform calls p
        let machine := Pipeline.performAll (Machine.perform s) calls .start
        pipeline.1 = machine.1 ∧ machine.2.Represents s pipeline.2 ∧
          ∀ rows, s.firstFault? machine.2.pending [] rows = none ↔
            s.Accepts machine.2.pending rows) ∧
      ∀ t : Totals,
        let bytes := if t.bytes.count = 0 then Binary64.zero false
          else Binary64.ofNat t.bytes.total / Binary64.ofNat s.byteUnit.factor
        let time := if t.time.count = 0 then Binary64.zero false
          else Binary64.ofNat t.time.total / Binary64.ofNat s.timeUnit.factor
        s.summary t = s.sums t ∧
          (s.sums t).toList =
            if s.byteTotalColumn = s.timeTotalColumn then [(s.timeTotalColumn, .float time)]
            else [(s.byteTotalColumn, .float bytes), (s.timeTotalColumn, .float time)] := by
  obtain ⟨args, s, hbind, houtcome, hstate, hstart⟩ :=
    represents_of_compile hregistry hcompile hgroups hname
  refine ⟨args, s, hbind, houtcome, hstate, fun calls => ?_, fun t =>
    ⟨s.summary_eq_sums t, s.sums_toList t⟩⟩
  obtain ⟨houtcomes, hlast⟩ := hstart.performAll calls
  exact ⟨houtcomes, hlast, Machine.firstFault?_eq_none_iff
    (Machine.performAll_within Totals.within_zero s calls) s⟩

/-- The group of a recipe that names four columns and no units. -/
def fourColumns : TokenGroup :=
  ⟨[.directiveName "aggregate-stats", .columnName "a", .columnName "b", .columnName "c",
    .columnName "d"], ⟨1, 0, 1, 27, "aggregate-stats :a :b :c :d"⟩⟩

def ofFourColumns : Pipeline where
  table := ⟨[fourColumns], [], none⟩
  stages := [⟨"aggregate-stats", fourColumns.span, aggregateStats,
    (⟨"a", "b", "c", "d", .mb, .seconds⟩ : AggregateStats), false⟩]
  context := .fresh .testing

theorem table_fourColumns :
    SymbolTable.compile "aggregate-stats :a :b :c :d" = .ok ⟨[fourColumns], [], none⟩ := by
  cbv

theorem compile_fourColumns :
    (Pipeline.compile "aggregate-stats :a :b :c :d" .builtin .testing).1 = .ok ofFourColumns := by
  simp only [Pipeline.compile, table_fourColumns]
  rfl

def ofColumns : AggregateStats := ⟨"a", "b", "c", "d", .mb, .seconds⟩

/-- A batch that passes on, a last batch that fails, one after it that ends the run all the same, and a
run without rows. -/
def twoRuns : List Pipeline.Call :=
  [.executeBatch [.ofList [("a", .raw "1 KB"), ("b", .raw "1500 ms")]] false,
    .executeBatch [.ofList [("a", .raw "1 KB")], .ofList [("a", .raw "many")]] true,
    .executeBatch [.ofList [("a", .raw "3 MB"), ("b", .null)], .ofList [("b", .raw "2 s")]] false,
    .beginRun,
    .executeBatch [] true]

/-- The message of a call that fails, or the rows that come out of it as texts. -/
def shown : Option (Except DirectiveError (List Row)) → Option (String ⊕ List String)
  | none => none
  | some (.error e) => some (.inl e.message)
  | some (.ok rows) => some (.inr (rows.map fun row => row.json.compact))

theorem prepare_fourColumns {args : Arguments} (h : Arguments.bind usage fourColumns = .ok args) :
    (prepare args start).state = ofColumns := by
  cases h
  rfl

/-- The batch that fails adds nothing, so a kilobyte and three megabytes are added up. -/
theorem refines_machine_fourColumns :
    Registry.builtin.get? directiveName = some aggregateStats ∧
      (Pipeline.compile "aggregate-stats :a :b :c :d" .builtin .testing).1 = .ok ofFourColumns ∧
      ofFourColumns.table.groups = [fourColumns] ∧
      fourColumns.directiveName? = some directiveName ∧
      (Pipeline.performAll Pipeline.perform twoRuns ofFourColumns).1 =
        (Pipeline.performAll (Machine.perform ofColumns) twoRuns .start).1 ∧
      (Pipeline.performAll (Machine.perform ofColumns) twoRuns .start).2.Represents ofColumns
        (Pipeline.performAll Pipeline.perform twoRuns ofFourColumns).2 ∧
      (Pipeline.performAll Pipeline.perform twoRuns ofFourColumns).1.map shown =
        [some (.inr ["\x7b\"a\":\"1 KB\",\"b\":\"1500 ms\",\"c\":0.0,\"d\":0.0\x7d"]),
          some (.inl ("directive 'aggregate-stats' failed on column 'a': Failed to parse byte size " ++
            "value 'many': invalid byte size format: 'many'")),
          some (.inr ["\x7b\"c\":3.0009765625,\"d\":3.5\x7d"]),
          none,
          some (.inr ["\x7b\"c\":0.0,\"d\":0.0\x7d"])] := by
  obtain ⟨args, s, hbind, -, hstate, hcalls, -⟩ :=
    @refines_machine _ _ _ _ fourColumns rfl compile_fourColumns rfl rfl
  rw [prepare_fourColumns hbind] at hstate
  obtain rfl := hstate
  obtain ⟨houtcomes, hlast, -⟩ := hcalls twoRuns
  refine ⟨rfl, compile_fourColumns, rfl, rfl, houtcomes, hlast, ?_⟩
  decide +kernel

end AggregateStats

end RowRecipe
