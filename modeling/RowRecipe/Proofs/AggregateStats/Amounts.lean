import Mathlib
import RowRecipe.AggregateStats.Basic

/-!
What rows add to the totals. Each of the two columns is a source of amounts: a row adds one amount
or none, or it is at fault because its cell cannot be read or because the sum would pass the limit.
Adding up rows one after another fails at the first row at fault, and otherwise adds what all of
them hold. Amounts are never negative, so no sum passes the limit on the way unless the whole sum
does.
-/

namespace RowRecipe

namespace Tally

/-- Both tallies together. -/
def plus (a b : Tally) : Tally := ⟨a.count + b.count, a.total + b.total⟩

theorem plus_assoc (a b c : Tally) : (a.plus b).plus c = a.plus (b.plus c) := by
  simp only [plus, Nat.add_assoc]

end Tally

namespace Totals

/-- Both totals together. -/
def plus (a b : Totals) : Totals := ⟨a.bytes.plus b.bytes, a.time.plus b.time⟩

end Totals

namespace AggregateStats

/-- A column that is added up, and how the amounts in its cells are read. -/
structure Source where
  column : String
  /-- What its cells hold, as it is called in messages. -/
  kind : String
  /-- The amount in a cell, or nothing if the cell is empty. -/
  amount? : Cell → Except UnitError (Option Nat)

/-- The source of amounts in a column of quantities. -/
def sourceOf {U : Type} [UnitFamily U] (column : String)
    (read : Cell → Except UnitError (Option (Quantity U))) : Source :=
  ⟨column, UnitFamily.kind U, fun cell => (read cell).map (Option.map Quantity.count)⟩

def byteSource (s : AggregateStats) : Source := sourceOf s.byteColumn Cell.byteSize?

def timeSource (s : AggregateStats) : Source := sourceOf s.timeColumn Cell.timeDuration?

namespace Source

variable (src : Source)

/-- The amount that a row adds, or nothing. -/
def read? (row : Row) : Except UnitError (Option Nat) := src.amount? (row.value src.column)

/-- What a row adds: one amount or none. -/
def tallyRow (row : Row) : Tally :=
  match src.read? row with
  | .ok (some amount) => ⟨1, amount⟩
  | _ => .zero

/-- What rows add: how many amounts, and their sum. -/
def tally (rows : List Row) : Tally :=
  ⟨(rows.map fun row => (src.tallyRow row).count).sum,
    (rows.map fun row => (src.tallyRow row).total).sum⟩

theorem tally_append (first second : List Row) :
    src.tally (first ++ second) = (src.tally first).plus (src.tally second) := by
  simp only [tally, Tally.plus, List.map_append, List.sum_append]

theorem tally_singleton (row : Row) : src.tally [row] = src.tallyRow row := by
  simp only [tally, List.map_cons, List.map_nil, List.sum_cons, List.sum_nil, Nat.add_zero]

theorem tally_perm {rows rows' : List Row} (h : rows.Perm rows') :
    src.tally rows = src.tally rows' := by
  simp only [tally, (h.map _).sum_nat]

/-- What is wrong with a row, after other rows were added to a pending sum. -/
def fault? (pending : Nat) (before : List Row) (row : Row) : Option DirectiveError :=
  match src.read? row with
  | .error e =>
      some (.execution directiveName src.column
        s!"Failed to parse {src.kind} value '{(row.value src.column).display}': {e.message}")
  | .ok none => none
  | .ok (some amount) =>
      if pending + (src.tally before).total + amount ≤ Tally.limit then none
      else some (.execution directiveName src.column "accumulated total overflowed")

/-- The rows can be added to a pending sum: their cells can be read, and the sum is within the
limit. -/
structure Accepts (pending : Nat) (rows : List Row) : Prop where
  reads : ∀ row ∈ rows, ∃ amount, src.read? row = .ok amount
  fits : pending + (src.tally rows).total ≤ Tally.limit

theorem accepts_perm (pending : Nat) {rows rows' : List Row} (h : rows.Perm rows') :
    src.Accepts pending rows ↔ src.Accepts pending rows' := by
  constructor
  · rintro ⟨hreads, hfits⟩
    rw [src.tally_perm h] at hfits
    refine ⟨?_, hfits⟩
    intro row hrow
    exact hreads row (h.mem_iff.mpr hrow)
  · rintro ⟨hreads, hfits⟩
    rw [← src.tally_perm h] at hfits
    refine ⟨?_, hfits⟩
    intro row hrow
    exact hreads row (h.mem_iff.mp hrow)

theorem accepts_nil {pending : Nat} (h : pending ≤ Tally.limit) : src.Accepts pending [] :=
  ⟨List.forall_mem_nil _, h⟩

/-- Fewer rows can be added if more can. -/
theorem Accepts.left {src : Source} {pending : Nat} {first second : List Row}
    (h : src.Accepts pending (first ++ second)) : src.Accepts pending first := by
  constructor
  · intro row hrow
    exact h.reads row (List.mem_append_left _ hrow)
  · have hfits := h.fits
    rw [tally_append] at hfits
    simp only [Tally.plus] at hfits
    omega

/-- One row more can be added exactly if it is not at fault. -/
theorem fault?_eq_none_iff {pending : Nat} {before : List Row} (h : src.Accepts pending before)
    (row : Row) : src.fault? pending before row = none ↔ src.Accepts pending (before ++ [row]) := by
  have hreads : (∀ r ∈ before ++ [row], ∃ amount, src.read? r = .ok amount) ↔
      ∃ amount, src.read? row = .ok amount := by
    constructor
    · exact fun hall => hall row (List.mem_append_right _ (List.mem_singleton_self row))
    · intro hrow r hr
      rcases List.mem_append.mp hr with hr | hr
      · exact h.reads r hr
      · rw [List.mem_singleton.mp hr]
        exact hrow
  have htotal : (src.tally (before ++ [row])).total =
      (src.tally before).total + (src.tallyRow row).total := by
    rw [tally_append, tally_singleton]
    rfl
  have haccepts : src.Accepts pending (before ++ [row]) ↔
      (∃ amount, src.read? row = .ok amount) ∧
        pending + (src.tally before).total + (src.tallyRow row).total ≤ Tally.limit := by
    rw [Nat.add_assoc, ← htotal, ← hreads]
    constructor
    · intro haccepts
      exact ⟨haccepts.reads, haccepts.fits⟩
    · rintro ⟨hall, hfits⟩
      exact ⟨hall, hfits⟩
  rw [haccepts]
  unfold fault? tallyRow
  cases hread : src.read? row with
  | error e => simp
  | ok amount? =>
      cases amount? with
      | none => simpa [Tally.zero] using h.fits
      | some amount => simp

end Source

/-- Adding a cell to what earlier rows have left fails if its row is at fault. -/
theorem addCell_eq {U : Type} [UnitFamily U] (column : String)
    (read : Cell → Except UnitError (Option (Quantity U))) (t : Tally) (before : List Row)
    (row : Row) :
    addCell column (row.value column) (read (row.value column))
        (t.plus ((sourceOf column read).tally before)) =
      match (sourceOf column read).fault? t.total before row with
      | some e => .error e
      | none => .ok (t.plus ((sourceOf column read).tally (before ++ [row]))) := by
  have hread : (sourceOf column read).read? row =
      (read (row.value column)).map (Option.map Quantity.count) := rfl
  rw [Source.tally_append, Source.tally_singleton, Source.fault?, Source.tallyRow, hread]
  generalize (sourceOf column read).tally before = sum
  cases read (row.value column) with
  | error e => rfl
  | ok quantity? =>
      cases quantity? with
      | none => rfl
      | some q =>
          by_cases hfits : t.total + sum.total + q.count ≤ Tally.limit
          · have hplus : (t.plus sum).total + q.count ≤ Tally.limit := hfits
            simp only [addCell, Tally.add?, Except.map, Option.map_some, if_pos hplus, if_pos hfits]
            exact congrArg Except.ok (Tally.plus_assoc t sum ⟨1, q.count⟩)
          · have hplus : ¬ (t.plus sum).total + q.count ≤ Tally.limit := hfits
            simp only [addCell, Tally.add?, Except.map, Option.map_some, if_neg hplus, if_neg hfits]
            rfl

variable (s : AggregateStats)

/-- What rows add to both totals. -/
def tallies (rows : List Row) : Totals := ⟨s.byteSource.tally rows, s.timeSource.tally rows⟩

/-- What is wrong with a row, after other rows were added to pending totals. The byte size is looked
at first. -/
def fault? (pending : Totals) (before : List Row) (row : Row) : Option DirectiveError :=
  (s.byteSource.fault? pending.bytes.total before row).or
    (s.timeSource.fault? pending.time.total before row)

/-- What is wrong with the first row at fault. -/
def firstFault? (pending : Totals) (before : List Row) : List Row → Option DirectiveError
  | [] => none
  | row :: rest => (s.fault? pending before row).or (firstFault? pending (before ++ [row]) rest)

/-- The rows can be added to pending totals in both columns. -/
structure Accepts (pending : Totals) (rows : List Row) : Prop where
  bytes : s.byteSource.Accepts pending.bytes.total rows
  time : s.timeSource.Accepts pending.time.total rows

theorem addRow_eq (pending : Totals) (before : List Row) (row : Row) :
    s.addRow (pending.plus (s.tallies before)) row =
      match s.fault? pending before row with
      | some e => .error e
      | none => .ok (pending.plus (s.tallies (before ++ [row]))) := by
  have hbytes := addCell_eq s.byteColumn Cell.byteSize? pending.bytes before row
  have htime := addCell_eq s.timeColumn Cell.timeDuration? pending.time before row
  unfold addRow fault?
  simp only [Totals.plus, tallies, byteSource, timeSource, hbytes]
  cases (sourceOf s.byteColumn Cell.byteSize?).fault? pending.bytes.total before row with
  | some e => rfl
  | none =>
      change (addCell s.timeColumn _ _ _ >>= _) = _
      rw [htime]
      cases (sourceOf s.timeColumn Cell.timeDuration?).fault? pending.time.total before row <;> rfl

/-- Adding up rows fails like the first row at fault, and otherwise adds what all of them hold. -/
theorem foldlM_addRow_eq (pending : Totals) (before rows : List Row) :
    rows.foldlM s.addRow (pending.plus (s.tallies before)) =
      match s.firstFault? pending before rows with
      | some e => .error e
      | none => .ok (pending.plus (s.tallies (before ++ rows))) := by
  induction rows generalizing before with
  | nil =>
      rw [List.append_nil]
      rfl
  | cons row rest ih =>
      rw [List.foldlM_cons, addRow_eq, firstFault?]
      cases s.fault? pending before row with
      | some e => rfl
      | none =>
          rw [Option.none_or, List.append_cons before row rest]
          exact ih (before ++ [row])

theorem foldlM_addRow (pending : Totals) (rows : List Row) :
    rows.foldlM s.addRow pending =
      match s.firstFault? pending [] rows with
      | some e => .error e
      | none => .ok (pending.plus (s.tallies rows)) :=
  s.foldlM_addRow_eq pending [] rows

/-- Rows are all in order exactly if their cells can be read and the sums stay within the limit. -/
theorem firstFault?_eq_none_iff {pending : Totals} {before : List Row}
    (h : s.Accepts pending before) (rows : List Row) :
    s.firstFault? pending before rows = none ↔ s.Accepts pending (before ++ rows) := by
  induction rows generalizing before with
  | nil =>
      rw [List.append_nil]
      exact iff_of_true rfl h
  | cons row rest ih =>
      have hrow : s.fault? pending before row = none ↔ s.Accepts pending (before ++ [row]) := by
        rw [fault?, Option.or_eq_none_iff, s.byteSource.fault?_eq_none_iff h.bytes,
          s.timeSource.fault?_eq_none_iff h.time]
        constructor
        · rintro ⟨hbytes, htime⟩
          exact ⟨hbytes, htime⟩
        · intro haccepts
          exact ⟨haccepts.bytes, haccepts.time⟩
      rw [firstFault?, Option.or_eq_none_iff, hrow, List.append_cons before row rest]
      constructor
      · rintro ⟨hfirst, hrest⟩
        exact (ih hfirst).mp hrest
      · intro hall
        have hfirst : s.Accepts pending (before ++ [row]) := ⟨hall.bytes.left, hall.time.left⟩
        exact ⟨hfirst, (ih hfirst).mpr hall⟩

end AggregateStats

end RowRecipe
