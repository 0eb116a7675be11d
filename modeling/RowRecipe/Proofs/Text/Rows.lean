import Mathlib
import RowRecipe.Proofs.Text.Lines

/-!
Rows of a text: what its newlines cut it into. A part of a text between two places is found by rows
and columns alone, without counting bytes.
-/

namespace RowRecipe

namespace Text

/-- What the newlines of a text cut it into. A newline at the end is followed by an empty row. -/
def rows (cs : List Char) : List (List Char) := cs.splitOn '\n'

/-- The part of a text from one line and column up to another: the rows from the first line to the
last one, the last of them cut off at its column, and the first of them started at its own. -/
def between (source : List Char) (startLine startColumn endLine endColumn : Nat) : List Char :=
  let upTo := ((rows source).take endLine).modifyLast (List.take endColumn)
  ['\n'].intercalate ((upTo.drop (startLine - 1)).modifyHead (List.drop startColumn))

theorem rows_nil : rows [] = [[]] := rfl

theorem exists_cons_rows (cs : List Char) : ∃ row more, rows cs = row :: more :=
  List.exists_cons_of_ne_nil (List.splitOnP_ne_nil _ _)

theorem intercalate_rows (cs : List Char) : ['\n'].intercalate (rows cs) = cs :=
  List.intercalate_splitOn '\n'

theorem rows_cons (c : Char) (cs : List Char) :
    rows (c :: cs) = if c = '\n' then [] :: rows cs else (rows cs).modifyHead (c :: ·) := by
  rw [rows, List.splitOn, List.splitOnP_cons_eq_if_modifyHead]
  simp only [beq_iff_eq]
  rfl

theorem length_rows (cs : List Char) : (rows cs).length = cs.count '\n' + 1 := by
  induction cs with
  | nil => rfl
  | cons c cs ih =>
      rw [rows_cons]
      split
      · rename_i hc
        rw [hc, List.length_cons, ih, List.count_cons_self]
      · rename_i hc
        rw [List.length_modifyHead, ih, List.count_cons_of_ne hc]

/-- Without a newline in it, a text only makes the first row longer. -/
theorem rows_append_row {row : List Char} (h : '\n' ∉ row) (cs : List Char) :
    rows (row ++ cs) = (rows cs).modifyHead (row ++ ·) := by
  obtain ⟨first, more, hrows⟩ := exists_cons_rows cs
  induction row with
  | nil =>
      rw [List.nil_append, hrows]
      rfl
  | cons c row ih =>
      rw [List.mem_cons, not_or] at h
      rw [List.cons_append, rows_cons, if_neg (Ne.symm h.1), ih h.2, hrows]
      rfl

theorem rows_row {row : List Char} (h : '\n' ∉ row) : rows row = [row] := by
  have hwhole := rows_append_row h []
  rw [List.append_nil] at hwhole
  rw [hwhole, rows_nil, List.modifyHead_cons, List.append_nil]

/-- Whole lines make rows of their own, one for each newline. -/
theorem rows_append_lines {lines : List Char} (h : EndsLine lines) :
    ∃ done, done.length = lines.count '\n' ∧ ∀ cs, rows (lines ++ cs) = done ++ rows cs := by
  rcases h with rfl | hlast
  · exact ⟨[], rfl, fun cs => rfl⟩
  · obtain ⟨front, rfl⟩ := List.getLast?_eq_some_iff.mp hlast
    refine ⟨rows front, ?_, fun cs => ?_⟩
    · rw [length_rows, List.count_append, List.count_singleton_self]
    · rw [List.append_assoc, List.singleton_append]
      exact List.splitOnP_append_cons front cs (by decide)

/-- The last row is what stands behind the whole lines. -/
theorem getLast?_rows {lines row : List Char} (hlines : EndsLine lines) (hrow : '\n' ∉ row) :
    (rows (lines ++ row)).getLast? = some row := by
  obtain ⟨done, -, hrows⟩ := rows_append_lines hlines
  rw [hrows, rows_row hrow, List.getLast?_concat]

end Text

end RowRecipe
