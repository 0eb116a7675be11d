import RowRecipe.Proofs.Text.Lines
import RowRecipe.Source.Position

/-!
Places by what stands in front of them. A place is looked up among the line starts of its source, and
yet its line and its column only depend on the text up to it: one counts its newlines, the other the
characters behind the last of them.
-/

namespace RowRecipe.Position

/-- The place right after a piece of text. -/
def afterText (before : List Char) : Position where
  offset := Text.byteLength before
  line := 1 + before.count '\n'
  column := (before.reverse.takeWhile (· != '\n')).length

/-- The characters since the last newline are those behind the whole lines. -/
theorem column_lines_row {lines row : List Char} (hlines : Text.EndsLine lines) (hrow : '\n' ∉ row) :
    ((lines ++ row).reverse.takeWhile (· != '\n')).length = row.length := by
  have hstop : lines.reverse.takeWhile (· != '\n') = [] := by
    rcases hlines with rfl | hlast
    · rfl
    · obtain ⟨front, rfl⟩ := List.getLast?_eq_some_iff.mp hlast
      rw [List.reverse_concat]
      rfl
  rw [List.reverse_append, List.takeWhile_append_of_pos, hstop, List.append_nil,
    List.length_reverse]
  intro c hc
  have hne : c ≠ '\n' := ne_of_mem_of_not_mem (List.mem_reverse.mp hc) hrow
  simpa using hne

theorem ofOffset_eq_afterText (source : List Char) (offset : Nat) :
    ofOffset source offset = { afterText (Text.takeBytes offset source) with offset := offset } := by
  obtain ⟨lines, row, htake, hlines, hrow⟩ :=
    Text.exists_lines_row (Text.takeBytes offset source)
  have hstarts := Text.lineStarts_takeWhile htake hlines hrow
  have hline : max 1 ((Text.lineStarts source).takeWhile (· ≤ offset)).length =
      1 + lines.count '\n' := by
    rw [hstarts, List.length_cons, Text.length_lineStartsAfter]
    omega
  have hstart : (Text.lineStarts source).getD (1 + lines.count '\n' - 1) 0 =
      Text.byteLength lines := by
    obtain ⟨more, hmore⟩ := List.takeWhile_prefix (l := Text.lineStarts source) (· ≤ offset)
    have hlast := Text.getLast?_lineStartsAfter hlines 0
    rw [List.getLast?_eq_getElem?, List.length_cons, Text.length_lineStartsAfter, Nat.zero_add,
      Nat.add_sub_cancel] at hlast
    rw [hstarts] at hmore
    rw [← hmore, List.getD_eq_getElem?_getD, Nat.add_sub_cancel_left, List.getElem?_append_left,
      hlast, Option.getD_some]
    rw [List.length_cons, Text.length_lineStartsAfter]
    exact Nat.lt_succ_self _
  have hsource : source = lines ++ (row ++ Text.dropBytes offset source) := by
    rw [← List.append_assoc, ← htake, Text.takeBytes_append_dropBytes]
  have hslice : Text.slice source (Text.byteLength lines) offset = row := by
    have hle := Text.byteLength_lines_le htake hlines
    have hrest := Text.takeBytes_add_append lines (row ++ Text.dropBytes offset source)
      (offset - Text.byteLength lines)
    rw [← hsource, Nat.sub_add_cancel hle, htake] at hrest
    rw [Text.slice]
    conv_lhs => rw [hsource, Text.dropBytes_byteLength_append]
    exact (List.append_cancel_left hrest).symm
  simp only [ofOffset, afterText, hline, hstart, hslice, htake, column_lines_row hlines hrow,
    List.count_append, List.count_eq_zero.mpr hrow, Nat.add_zero]

end RowRecipe.Position
