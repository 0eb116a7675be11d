import Mathlib.Data.List.TakeWhile
import RowRecipe.Proofs.Text.Offsets
import RowRecipe.Source.Position

/-!
Whole lines in front of an offset. What stands in front of an offset is some whole lines and a first
part of one more line, and the line starts up to the offset are those of the whole lines and that of
the line begun.
-/

namespace RowRecipe.Text

/-- The text is empty or ends with a newline. -/
def EndsLine (cs : List Char) : Prop := cs = [] ∨ cs.getLast? = some '\n'

/-- Every text is whole lines with a part of one line behind them. -/
theorem exists_lines_row (cs : List Char) :
    ∃ lines row, cs = lines ++ row ∧ EndsLine lines ∧ '\n' ∉ row := by
  refine ⟨(cs.reverse.dropWhile (· != '\n')).reverse, (cs.reverse.takeWhile (· != '\n')).reverse,
    ?_, ?_, ?_⟩
  · rw [← List.reverse_append, List.takeWhile_append_dropWhile, List.reverse_reverse]
  · rw [EndsLine, List.reverse_eq_nil_iff, List.getLast?_reverse]
    cases hrest : cs.reverse.dropWhile (· != '\n') with
    | nil => exact .inl rfl
    | cons c rest =>
        have hc := List.head?_dropWhile_not (· != '\n') cs.reverse
        rw [hrest] at hc
        right
        simpa using hc
  · rw [List.mem_reverse]
    intro h
    simpa using List.mem_takeWhile_imp h

theorem lineStartsAfter_append (a b : List Char) (offset : Nat) :
    lineStartsAfter offset (a ++ b) =
      lineStartsAfter offset a ++ lineStartsAfter (offset + byteLength a) b := by
  induction a generalizing offset with
  | nil => rfl
  | cons c rest ih =>
      simp only [List.cons_append, lineStartsAfter, byteLength, ih, Nat.add_assoc]
      split
      · rfl
      · rfl

/-- One line starts behind each newline. -/
theorem length_lineStartsAfter (cs : List Char) (offset : Nat) :
    (lineStartsAfter offset cs).length = cs.count '\n' := by
  induction cs generalizing offset with
  | nil => rfl
  | cons c rest ih =>
      simp only [lineStartsAfter, List.count_cons, beq_iff_eq]
      split
      · rw [List.length_cons, ih]
      · rw [ih, Nat.add_zero]

theorem lineStartsAfter_row {row : List Char} (h : '\n' ∉ row) (offset : Nat) :
    lineStartsAfter offset row = [] := by
  rw [← List.length_eq_zero_iff, length_lineStartsAfter, List.count_eq_zero.mpr h]

theorem lineStartsAfter_bounds (cs : List Char) (offset : Nat) :
    ∀ start ∈ lineStartsAfter offset cs, offset < start ∧ start ≤ offset + byteLength cs := by
  induction cs generalizing offset with
  | nil => exact List.forall_mem_nil _
  | cons c rest ih =>
      intro start hstart
      have hpos := c.utf8Size_pos
      have hmem : start = offset + c.utf8Size ∨
          start ∈ lineStartsAfter (offset + c.utf8Size) rest := by
        simp only [lineStartsAfter] at hstart
        split at hstart
        · exact List.mem_cons.mp hstart
        · exact .inr hstart
      rw [byteLength]
      rcases hmem with rfl | hrest
      · omega
      · have hbounds := ih _ start hrest
        omega

/-- The last line starts behind the whole lines. -/
theorem getLast?_lineStartsAfter {lines : List Char} (h : EndsLine lines) (offset : Nat) :
    (offset :: lineStartsAfter offset lines).getLast? = some (offset + byteLength lines) := by
  rcases h with rfl | hlast
  · rfl
  · obtain ⟨front, rfl⟩ := List.getLast?_eq_some_iff.mp hlast
    rw [lineStartsAfter_append, ← List.cons_append, byteLength_append, ← Nat.add_assoc]
    exact List.getLast?_concat

/-- If the text goes on at an offset, there is text up to that offset. -/
theorem le_byteLength_takeBytes {n : Nat} {cs : List Char} (h : dropBytes n cs ≠ []) :
    n ≤ byteLength (takeBytes n cs) := by
  induction cs generalizing n with
  | nil =>
      cases n with
      | zero => exact absurd rfl h
      | succ n => exact absurd rfl h
  | cons c rest ih =>
      cases n with
      | zero => exact Nat.zero_le _
      | succ n =>
          have hrest := ih h
          simp only [takeBytes, byteLength]
          omega

/-- A character in front of an offset starts in front of it. -/
theorem byteLength_lt_of_takeBytes {n : Nat} {cs a b : List Char} {c : Char}
    (h : takeBytes n cs = a ++ c :: b) : byteLength a < n := by
  induction cs generalizing n a with
  | nil =>
      rw [takeBytes] at h
      cases a <;> cases h
  | cons d rest ih =>
      cases n with
      | zero => cases a <;> cases h
      | succ n =>
          rw [takeBytes] at h
          cases a with
          | nil => exact Nat.succ_pos n
          | cons first a =>
              rw [List.cons_append, List.cons.injEq] at h
              have hrest := ih h.2
              rw [byteLength, ← h.1]
              omega

/-- Whole lines in front of an offset end there or earlier. -/
theorem byteLength_lines_le {n : Nat} {cs lines row : List Char} (h : takeBytes n cs = lines ++ row)
    (hlines : EndsLine lines) : byteLength lines ≤ n := by
  rcases hlines with rfl | hlast
  · exact Nat.zero_le n
  · obtain ⟨front, rfl⟩ := List.getLast?_eq_some_iff.mp hlast
    rw [List.append_assoc] at h
    have hlt := byteLength_lt_of_takeBytes h
    have hnewline : byteLength ['\n'] = 1 := by decide
    rw [byteLength_append, hnewline]
    exact hlt

/-- The lines that start at an offset or in front of it. -/
theorem lineStarts_takeWhile {n : Nat} {source lines row : List Char}
    (h : takeBytes n source = lines ++ row) (hlines : EndsLine lines) (hrow : '\n' ∉ row) :
    (lineStarts source).takeWhile (· ≤ n) = 0 :: lineStartsAfter 0 lines := by
  have hsource : source = lines ++ (row ++ dropBytes n source) := by
    rw [← List.append_assoc, ← h, takeBytes_append_dropBytes]
  have hstarts : lineStarts source = 0 :: lineStartsAfter 0 lines ++
      lineStartsAfter (byteLength (takeBytes n source)) (dropBytes n source) := by
    rw [lineStarts]
    conv_lhs => rw [hsource]
    rw [lineStartsAfter_append, lineStartsAfter_append, lineStartsAfter_row hrow, h,
      byteLength_append, Nat.zero_add, List.nil_append, List.cons_append]
  have hle := byteLength_lines_le h hlines
  rw [hstarts, List.takeWhile_append_of_pos]
  · have hnone : (lineStartsAfter (byteLength (takeBytes n source)) (dropBytes n source)).takeWhile
        (· ≤ n) = [] := by
      rw [List.takeWhile_eq_nil_iff]
      intro hpos hmore
      have hne : dropBytes n source ≠ [] := by
        rintro hnil
        rw [hnil] at hpos
        exact absurd hpos (Nat.lt_irrefl 0)
      have hfar := le_byteLength_takeBytes hne
      have hbounds := lineStartsAfter_bounds _ _ _ (List.get_mem _ ⟨0, hpos⟩)
      have hmore := of_decide_eq_true hmore
      omega
    rw [hnone, List.append_nil]
  · intro start hstart
    apply decide_eq_true
    rcases List.mem_cons.mp hstart with rfl | hmem
    · exact Nat.zero_le n
    · have hbounds := lineStartsAfter_bounds _ _ _ hmem
      omega

end RowRecipe.Text
