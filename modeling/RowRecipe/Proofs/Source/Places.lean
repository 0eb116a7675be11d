import Mathlib
import RowRecipe.Proofs.Source.Lookup
import RowRecipe.Proofs.Text.Rows

/-!
Places after first parts of a text. The place of an offset is the one after the characters in front of
it. The line and the column of two such places are enough to cut out what stands between them, and
they come in the order of the offsets.
-/

namespace RowRecipe

namespace Position

/-- The place is the one after a first part of a text: its offset counts the bytes of that part, its
line the newlines, and its column the characters since the last newline. -/
structure EndOf (before : List Char) (p : Position) : Prop where
  offset : p.offset = Text.byteLength before
  line : p.line = 1 + before.count '\n'
  column : ∃ lines row, before = lines ++ row ∧ Text.EndsLine lines ∧ '\n' ∉ row ∧
    p.column = row.length

theorem afterText_endOf (before : List Char) : (afterText before).EndOf before := by
  obtain ⟨lines, row, rfl, hlines, hrow⟩ := Text.exists_lines_row before
  exact ⟨rfl, rfl, lines, row, rfl, hlines, hrow, column_lines_row hlines hrow⟩

/-- At a cut of a source stands the place after what is in front of the cut. -/
theorem ofOffset_endOf (before rest : List Char) :
    (ofOffset (before ++ rest) (Text.byteLength before)).EndOf before := by
  have hplace := afterText_endOf before
  rw [ofOffset_eq_afterText, Text.takeBytes_byteLength_append]
  exact ⟨rfl, hplace.line, hplace.column⟩

namespace EndOf

variable {before after : List Char} {p q : Position}

/-- A text has one place behind it. -/
theorem unique (h : p.EndOf before) (hq : q.EndOf before) : p = q := by
  obtain ⟨lines, row, rfl, hlines, hrow, hcolumn⟩ := h.column
  obtain ⟨lines', row', hsame, hlines', hrow', hcolumn'⟩ := hq.column
  have hlast := Text.getLast?_rows hlines hrow
  rw [hsame, Text.getLast?_rows hlines' hrow'] at hlast
  obtain rfl := Option.some.inj hlast
  rw [Position.mk.injEq, h.offset, hq.offset, h.line, hq.line, hcolumn, hcolumn']
  exact ⟨rfl, rfl, rfl⟩

/-- Further on along the same line. -/
theorem along (h : p.EndOf before) {part : List Char} (hpart : '\n' ∉ part) :
    EndOf (before ++ part) ⟨p.offset + Text.byteLength part, p.line, p.column + part.length⟩ := by
  obtain ⟨lines, row, hbefore, hlines, hrow, hcolumn⟩ := h.column
  refine ⟨?_, ?_, lines, row ++ part, ?_, hlines, ?_, ?_⟩
  · rw [Text.byteLength_append, h.offset]
  · rw [List.count_append, List.count_eq_zero.mpr hpart, Nat.add_zero, h.line]
  · rw [hbefore, List.append_assoc]
  · rw [List.mem_append]
    exact not_or.mpr ⟨hrow, hpart⟩
  · rw [hcolumn, List.length_append]

/-- The rows up to a place are the rows of the text in front of it. -/
theorem rows_take (h : p.EndOf before) (rest : List Char) :
    ((Text.rows (before ++ rest)).take p.line).modifyLast (List.take p.column) =
      Text.rows before := by
  obtain ⟨lines, row, rfl, hlines, hrow, hcolumn⟩ := h.column
  obtain ⟨done, hdone, hrows⟩ := Text.rows_append_lines hlines
  obtain ⟨first, more, hrest⟩ := Text.exists_cons_rows rest
  have hline : p.line = done.length + 1 := by
    rw [h.line, List.count_append, List.count_eq_zero.mpr hrow, hdone]
    omega
  have hlast : Text.rows (lines ++ row) = done ++ [row] := by
    rw [hrows, Text.rows_row hrow]
  rw [List.append_assoc, hrows, Text.rows_append_row hrow, hrest, List.modifyHead_cons, hline, hlast,
    List.take_append, List.take_of_length_le (Nat.le_succ _), Nat.add_sub_cancel_left, hcolumn]
  rw [List.take_one, List.head?_cons, Option.toList_some, List.modifyLast_concat, List.take_left]

/-- The rows from a place on are the rows of the text behind it. -/
theorem rows_drop (h : p.EndOf before) (rest : List Char) :
    ((Text.rows (before ++ rest)).drop (p.line - 1)).modifyHead (List.drop p.column) =
      Text.rows rest := by
  obtain ⟨lines, row, rfl, hlines, hrow, hcolumn⟩ := h.column
  obtain ⟨done, hdone, hrows⟩ := Text.rows_append_lines hlines
  obtain ⟨first, more, hrest⟩ := Text.exists_cons_rows rest
  have hline : p.line - 1 = done.length := by
    rw [h.line, List.count_append, List.count_eq_zero.mpr hrow, hdone]
    omega
  rw [List.append_assoc, hrows, Text.rows_append_row hrow, hrest, List.modifyHead_cons, hline,
    List.drop_left, List.modifyHead_cons, hcolumn, List.drop_left]

/-- Between the places in front of a part of a text and behind it, there is that part. -/
theorem between {part : List Char} (h : p.EndOf before) (hq : q.EndOf (before ++ part))
    (rest : List Char) :
    Text.between (before ++ part ++ rest) p.line p.column q.line q.column = part := by
  rw [Text.between, hq.rows_take, h.rows_drop, Text.intercalate_rows]

/-- Further along in a text is further down, or further to the right on the same line. -/
theorem before_or_left (h : p.EndOf before) {part : List Char} (hq : q.EndOf (before ++ part)) :
    p.line < q.line ∨ p.line = q.line ∧ q.column = p.column + part.length := by
  rcases Decidable.em ('\n' ∈ part) with hpart | hpart
  · left
    rw [h.line, hq.line, List.count_append]
    have hsome := List.count_pos_iff.mpr hpart
    omega
  · right
    obtain rfl := hq.unique (h.along hpart)
    exact ⟨rfl, rfl⟩

end EndOf

end Position

end RowRecipe
