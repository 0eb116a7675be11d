import RowRecipe.AggregateStats.Basic
import RowRecipe.Proofs.Binary64.Equality
import RowRecipe.Proofs.Quantity.Made

/-!
What cells hold. Reading a cell as a quantity of one family gives nothing for an empty cell and for no
other, and no number, word or quantity of the other family ever passes for a quantity, though all of
them are read by their texts. So adding up a column passes over a row exactly when its cell is empty;
any other cell adds its amount, or the row is refused.
-/

namespace RowRecipe

open Quantity

section Families

variable {U V : Type} [UnitFamily U]

/-- The cell holds text, a word or a number. -/
inductive Cell.IsPlain : Cell → Prop
  | raw (s : String) : IsPlain (.raw s)
  | text (s : String) : IsPlain (.text s)
  | bool (b : Bool) : IsPlain (.bool b)
  | int (i : Int) : IsPlain (.int i)
  | float (x : Binary64) : IsPlain (.float x)

/-- How cells are read as quantities of their own family, where there is one other. -/
structure Decoder (own : Quantity U → Cell) (foreign : Quantity V → Cell)
    (read : Cell → Except UnitError (Option (Quantity U))) : Prop where
  null : read .null = .ok none
  kept : ∀ q, read (own q) = .ok (some q)
  shown : ∀ cell, cell.IsPlain ∨ (∃ q, cell = foreign q) →
    read cell = (parse cell.display).map some
  forms : ∀ cell, cell = .null ∨ (∃ q, cell = own q) ∨ cell.IsPlain ∨ ∃ q, cell = foreign q

theorem decoder_byteSize : Decoder .byteSize .timeDuration Cell.byteSize? where
  null := rfl
  kept _ := rfl
  shown := by
    rintro cell ((⟨s⟩ | ⟨s⟩ | ⟨b⟩ | ⟨i⟩ | ⟨x⟩) | ⟨q, rfl⟩)
    all_goals rfl
  forms := by
    intro cell
    cases cell with
    | null => exact .inl rfl
    | byteSize size => exact .inr (.inl ⟨size, rfl⟩)
    | timeDuration duration => exact .inr (.inr (.inr ⟨duration, rfl⟩))
    | _ => exact .inr (.inr (.inl (by constructor)))

theorem decoder_timeDuration : Decoder .timeDuration .byteSize Cell.timeDuration? where
  null := rfl
  kept _ := rfl
  shown := by
    rintro cell ((⟨s⟩ | ⟨s⟩ | ⟨b⟩ | ⟨i⟩ | ⟨x⟩) | ⟨q, rfl⟩)
    all_goals rfl
  forms := by
    intro cell
    cases cell with
    | null => exact .inl rfl
    | timeDuration duration => exact .inr (.inl ⟨duration, rfl⟩)
    | byteSize size => exact .inr (.inr (.inr ⟨size, rfl⟩))
    | _ => exact .inr (.inr (.inl (by constructor)))

/-- What reading a cell as a quantity gives. -/
structure Cell.Decodes (own : Quantity U → Cell) (foreign : Quantity V → Cell) (cell : Cell)
    (result : Except UnitError (Option (Quantity U))) : Prop where
  absent : result = .ok none ↔ cell = .null
  kept : ∀ q, cell = own q → result = .ok (some q)
  text : ∀ s, cell = .raw s ∨ cell = .text s → result = (parse s).map some
  blank : ∀ s, cell = .raw s ∨ cell = .text s → Text.isBlankText s = true → ∃ e, result = .error e
  refused : (∃ b, cell = .bool b) ∨ (∃ i, cell = .int i) ∨ (∃ x, cell = .float x) ∨
    (∃ q, cell = foreign q) → ∃ e, result = .error e

variable {own : Quantity U → Cell} {foreign : Quantity V → Cell}
  {read : Cell → Except UnitError (Option (Quantity U))} {cell : Cell}

theorem Decoder.absent (h : Decoder own foreign read) : read cell = .ok none ↔ cell = .null := by
  constructor
  · intro hnone
    have hshown : cell.IsPlain ∨ (∃ q, cell = foreign q) → cell = .null := by
      intro hcell
      rw [h.shown cell hcell] at hnone
      obtain ⟨q, -, hq⟩ := Outcome.map_eq_ok.mp hnone
      cases hq
    rcases h.forms cell with hnull | ⟨q, rfl⟩ | hcell
    · exact hnull
    · rw [h.kept q] at hnone
      cases hnone
    · exact hshown hcell
  · rintro rfl
    exact h.null

theorem Decoder.decodes (hU : Spellable U) (h : Decoder own foreign read)
    (hforeign : ∀ q, cell = foreign q →
      ∃ e, (parse cell.display : Except UnitError (Quantity U)) = .error e) :
    cell.Decodes own foreign (read cell) := by
  have hrefused : cell.IsPlain ∨ (∃ q, cell = foreign q) →
      (∃ e, (parse cell.display : Except UnitError (Quantity U)) = .error e) →
      ∃ e, read cell = .error e := by
    rintro hcell ⟨e, he⟩
    exact ⟨e, by rw [h.shown cell hcell, he]; rfl⟩
  have htext : ∀ s, cell = .raw s ∨ cell = .text s → cell.IsPlain ∧ cell.display = s := by
    rintro s (rfl | rfl)
    · exact ⟨.raw s, rfl⟩
    · exact ⟨.text s, rfl⟩
  refine ⟨h.absent, ?_, fun s hs => ?_, fun s hs hblank => ?_, ?_⟩
  · rintro q rfl
    exact h.kept q
  · obtain ⟨hplain, hdisplay⟩ := htext s hs
    rw [h.shown cell (.inl hplain), hdisplay]
  · obtain ⟨hplain, rfl⟩ := htext s hs
    exact hrefused (.inl hplain) (refused_of_blank hU hblank)
  · rintro (⟨b, rfl⟩ | ⟨i, rfl⟩ | ⟨x, rfl⟩ | ⟨q, hq⟩)
    · exact hrefused (.inl (.bool b)) (refused_boolName hU b)
    · exact hrefused (.inl (.int i)) (refused_int hU i)
    · exact hrefused (.inl (.float x)) (refused_float hU x)
    · exact hrefused (.inr ⟨q, hq⟩) (hforeign q hq)

end Families

/-- A quantity in the cell was read from a text or made from a magnitude. -/
def Cell.Made : Cell → Prop
  | .byteSize size => Quantity.Made size
  | .timeDuration duration => Quantity.Made duration
  | _ => True

theorem Cell.Made.byteSize {cell : Cell} (h : cell.Made) :
    cell.Decodes .byteSize .timeDuration cell.byteSize? :=
  decoder_byteSize.decodes spellable_byteUnit <| by
    rintro q rfl
    exact Quantity.Made.refused spellable_timeUnit spellable_byteUnit endApart_byteUnit_timeUnit.symm h

theorem Cell.Made.timeDuration {cell : Cell} (h : cell.Made) :
    cell.Decodes .timeDuration .byteSize cell.timeDuration? :=
  decoder_timeDuration.decodes spellable_timeUnit <| by
    rintro q rfl
    exact Quantity.Made.refused spellable_byteUnit spellable_timeUnit endApart_byteUnit_timeUnit h

section Columns

variable {U : Type} [UnitFamily U] {column : String} {cell : Cell}
  {result : Except UnitError (Option (Quantity U))} {t t' : Tally}

/-- What a row does to the tally of a column, when it is added. The sum stays the same when there is no
cell or an empty one, or one whose amount is zero. -/
structure Tally.Advances (t : Tally) (cell? : Option Cell)
    (result : Except UnitError (Option (Quantity U))) (t' : Tally) : Prop where
  unchanged : t'.total = t.total ↔ (cell? = none ∨ cell? = some .null) ∨
    ∃ q, result = .ok (some q) ∧ q.count = 0
  skipped : cell? = none ∨ cell? = some .null → t' = t
  added : ∀ q, result = .ok (some q) →
    t' = ⟨t.count + 1, t.total + q.count⟩ ∧ t.total + q.count ≤ Tally.limit
  read : ∃ quantity?, result = .ok quantity?

/-- A row is refused for a column: its cell cannot be read, or the sum would pass the limit. -/
def Tally.Refuses (t : Tally) (result : Except UnitError (Option (Quantity U))) : Prop :=
  (∃ e, result = .error e) ∨ ∃ q, result = .ok (some q) ∧ Tally.limit < t.total + q.count

namespace AggregateStats

theorem addCell_eq_ok_iff : addCell column cell result t = .ok t' ↔ (result = .ok none ∧ t' = t) ∨
    ∃ q, result = .ok (some q) ∧ t.total + q.count ≤ Tally.limit ∧
      t' = ⟨t.count + 1, t.total + q.count⟩ := by
  cases result with
  | error e => simp [addCell]
  | ok quantity? =>
      cases quantity? with
      | none => simp [addCell, eq_comm]
      | some q =>
          by_cases hfits : t.total + q.count ≤ Tally.limit
          · simp [addCell, Tally.add?, hfits, eq_comm]
          · simp [addCell, Tally.add?, hfits]

theorem exists_addCell_error_iff (column : String) (cell : Cell) :
    (∃ e, addCell column cell result t = .error e) ↔ t.Refuses result := by
  rw [Tally.Refuses]
  cases result with
  | error e => simp [addCell]
  | ok quantity? =>
      cases quantity? with
      | none => simp [addCell]
      | some q =>
          by_cases hfits : t.total + q.count ≤ Tally.limit
          · simp [addCell, Tally.add?, hfits]
          · simp [addCell, Tally.add?, hfits, Nat.lt_of_not_le hfits]

/-- The tally of a column, when a row is added. -/
theorem advances_of_addCell {cell? : Option Cell}
    (habsent : result = .ok none ↔ cell? = none ∨ cell? = some .null)
    (h : addCell column cell result t = .ok t') : t.Advances cell? result t' := by
  rcases addCell_eq_ok_iff.mp h with ⟨rfl, rfl⟩ | ⟨q, rfl, hfits, rfl⟩
  · refine ⟨iff_of_true rfl (.inl (habsent.mp rfl)), fun _ => rfl, ?_, ⟨none, rfl⟩⟩
    intro q hq
    cases hq
  · have hpresent : ¬(cell? = none ∨ cell? = some .null) := fun hnone => nomatch habsent.mpr hnone
    refine ⟨?_, fun hnone => absurd hnone hpresent, ?_, ⟨some q, rfl⟩⟩
    · constructor
      · intro hsame
        exact .inr ⟨q, rfl, by simpa using hsame⟩
      · rintro (hnone | ⟨q', hq', hzero⟩)
        · exact absurd hnone hpresent
        · obtain rfl := Option.some.inj (Except.ok.inj hq')
          simp only [hzero, Nat.add_zero]
    · intro q' hq'
      obtain rfl := Option.some.inj (Except.ok.inj hq')
      exact ⟨rfl, hfits⟩

end AggregateStats

end Columns

/-- The amount of a whole number of units is what these hold together, if it is less than 2^53. -/
theorem Quantity.count_of_whole {U : Type} [UnitFamily U] {q : Quantity U} {n : Nat}
    (hvalue : q.value = Binary64.ofNat n) (hn : n < 2 ^ 53) (hunit : UnitFamily.factor q.unit < 2 ^ 53)
    (h : n * UnitFamily.factor q.unit < 2 ^ 53) : q.count = n * UnitFamily.factor q.unit := by
  rw [count, hvalue, Binary64.ofNat_mul_ofNat hn hunit h, Binary64.toUnsigned64_ofNat h]

theorem Row.value_eq_null_iff (row : Row) (column : String) :
    row.value column = .null ↔ row.get? column = none ∨ row.get? column = some .null := by
  rw [Row.value]
  cases row.get? column with
  | none => simp
  | some cell => simp

namespace AggregateStats

variable (s : AggregateStats) (t : Totals) (row : Row)

theorem addRow_eq_ok_iff {t' : Totals} : s.addRow t row = .ok t' ↔
    addCell s.byteColumn (row.value s.byteColumn) (row.value s.byteColumn).byteSize? t.bytes =
      .ok t'.bytes ∧
    addCell s.timeColumn (row.value s.timeColumn) (row.value s.timeColumn).timeDuration? t.time =
      .ok t'.time := by
  rw [addRow, Outcome.bind_eq_ok]
  constructor
  · rintro ⟨bytes, hbytes, hrest⟩
    obtain ⟨time, htime, hdone⟩ := Outcome.bind_eq_ok.mp hrest
    obtain rfl := Except.ok.inj hdone
    exact ⟨hbytes, htime⟩
  · rintro ⟨hbytes, htime⟩
    exact ⟨_, hbytes, Outcome.bind_eq_ok.mpr ⟨_, htime, rfl⟩⟩

theorem exists_addRow_error_iff : (∃ e, s.addRow t row = .error e) ↔
    t.bytes.Refuses (row.value s.byteColumn).byteSize? ∨
      t.time.Refuses (row.value s.timeColumn).timeDuration? := by
  rw [← exists_addCell_error_iff s.byteColumn (row.value s.byteColumn),
    ← exists_addCell_error_iff s.timeColumn (row.value s.timeColumn)]
  constructor
  · rintro ⟨e, h⟩
    rcases Outcome.bind_eq_error.mp h with hbytes | ⟨bytes, -, hrest⟩
    · exact .inl ⟨e, hbytes⟩
    · rcases Outcome.bind_eq_error.mp hrest with htime | ⟨time, -, hdone⟩
      · exact .inr ⟨e, htime⟩
      · cases hdone
  · rintro (⟨e, hbytes⟩ | ⟨e, htime⟩)
    · exact ⟨e, Outcome.bind_eq_error.mpr (.inl hbytes)⟩
    · cases hbytes : addCell s.byteColumn (row.value s.byteColumn)
          (row.value s.byteColumn).byteSize? t.bytes with
      | error e => exact ⟨e, Outcome.bind_eq_error.mpr (.inl hbytes)⟩
      | ok bytes =>
          exact ⟨e, Outcome.bind_eq_error.mpr
            (.inr ⟨bytes, hbytes, Outcome.bind_eq_error.mpr (.inl htime)⟩)⟩

/-- Adding a row, column by column. -/
theorem advances_of_addRow {t' : Totals} (h : s.addRow t row = .ok t') :
    t.bytes.Advances (row.get? s.byteColumn) (row.value s.byteColumn).byteSize? t'.bytes ∧
      t.time.Advances (row.get? s.timeColumn) (row.value s.timeColumn).timeDuration? t'.time := by
  obtain ⟨hbytes, htime⟩ := (s.addRow_eq_ok_iff t row).mp h
  exact ⟨advances_of_addCell (decoder_byteSize.absent.trans (row.value_eq_null_iff _)) hbytes,
    advances_of_addCell (decoder_timeDuration.absent.trans (row.value_eq_null_iff _)) htime⟩

/-- Cells are read as quantities of their own family only, and only an empty cell holds none. Therefore
a row that is added leaves the total of a column as it is exactly when its cell there is missing, empty
or of no amount; otherwise it adds the amount in base units. It is refused when one of its cells cannot
be read, or when a sum would pass the limit. -/
theorem decoding_exact {cell : Cell} (h : cell.Made) (s : AggregateStats) (t : Totals) (row : Row) :
    cell.Decodes .byteSize .timeDuration cell.byteSize? ∧
      cell.Decodes .timeDuration .byteSize cell.timeDuration? ∧
      (∀ t', s.addRow t row = .ok t' →
        t.bytes.Advances (row.get? s.byteColumn) (row.value s.byteColumn).byteSize? t'.bytes ∧
        t.time.Advances (row.get? s.timeColumn) (row.value s.timeColumn).timeDuration? t'.time) ∧
      ((∃ e, s.addRow t row = .error e) ↔ t.bytes.Refuses (row.value s.byteColumn).byteSize? ∨
        t.time.Refuses (row.value s.timeColumn).timeDuration?) :=
  ⟨h.byteSize, h.timeDuration, fun _ => s.advances_of_addRow t row, s.exists_addRow_error_iff t row⟩

/-- A row with a size and a duration. -/
def rowOfBoth : Row :=
  .ofList [("a", .raw "1 KB"), ("b", .timeDuration (TimeDuration.ofMillis 1500))]

/-- A duration made from a count of milliseconds is a duration and no size. A row without columns is
added and changes neither total; a row with a size and that duration adds the bytes and the nanoseconds
of them. -/
theorem decoding_exact_ofMillis :
    (Cell.timeDuration (TimeDuration.ofMillis 1500)).Made ∧
      (∃ e, (Cell.timeDuration (TimeDuration.ofMillis 1500)).byteSize? = .error e) ∧
      (Cell.timeDuration (TimeDuration.ofMillis 1500)).timeDuration? =
        .ok (some (TimeDuration.ofMillis 1500)) ∧
      (∃ t', start.addRow .zero .empty = .ok t' ∧ t'.bytes.total = 0 ∧ t'.time.total = 0) ∧
      ∃ t', (⟨"a", "b", "c", "d", .mb, .seconds⟩ : AggregateStats).addRow .zero rowOfBoth = .ok t' ∧
        t'.bytes = ⟨1, 1024⟩ ∧ t'.time = ⟨1, 1500 * 1000000⟩ := by
  have hmade : (Cell.timeDuration (TimeDuration.ofMillis 1500)).Made := .magnitude _ _
  have hadd : start.addRow .zero .empty = .ok .zero := rfl
  obtain ⟨hbyte, htime, hadded, -⟩ := decoding_exact hmade start .zero .empty
  obtain ⟨hbytes, htimes⟩ := hadded .zero hadd
  refine ⟨hmade, hbyte.refused (.inr (.inr (.inr ⟨_, rfl⟩))), htime.kept _ rfl,
    ⟨.zero, hadd, hbytes.unchanged.mpr (.inl (.inl rfl)), htimes.unchanged.mpr (.inl (.inl rfl))⟩, ?_⟩
  have hboth : (⟨"a", "b", "c", "d", .mb, .seconds⟩ : AggregateStats).addRow .zero rowOfBoth =
      .ok ⟨⟨1, 1024⟩, ⟨1, 1500 * 1000000⟩⟩ :=
    Outcome.toOption_eq_some.mp (by decide +kernel)
  obtain ⟨-, -, hadded, -⟩ := decoding_exact hmade ⟨"a", "b", "c", "d", .mb, .seconds⟩ .zero rowOfBoth
  obtain ⟨-, htimes⟩ := hadded _ hboth
  have hvalue : (TimeDuration.ofMillis 1500).value = Binary64.ofNat 1500 := by
    rw [TimeDuration.ofMillis, ofValue]
  have hcount : (TimeDuration.ofMillis 1500).count = 1500 * 1000000 :=
    count_of_whole hvalue (by decide) (by decide) (by decide)
  have hcell : rowOfBoth.value "b" = .timeDuration (TimeDuration.ofMillis 1500) := by decide +kernel
  have hread : (rowOfBoth.value "b").timeDuration? = .ok (some (TimeDuration.ofMillis 1500)) := by
    rw [hcell]
    exact decoder_timeDuration.kept _
  obtain ⟨hall, -⟩ := htimes.added _ hread
  rw [hcount] at hall
  exact ⟨_, hboth, rfl, hall⟩

end AggregateStats

end RowRecipe
