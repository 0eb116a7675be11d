import RowRecipe.Proofs.Source.Lookup

/-!
Texts that are parts of longer ones. A frame is what stands around a text: some lines in front of it
and anything behind it. A place in the text is then found further along and further down, but in the
same column, since the line it is on starts in the text.
-/

namespace RowRecipe

namespace Position

/-- The same place of a text that stands further along in a longer one. -/
def moved (bytes lines : Nat) (p : Position) : Position :=
  ⟨p.offset + bytes, p.line + lines, p.column⟩

end Position

/-- What stands around a text in a longer one. The text starts on a line of its own. -/
structure Frame where
  before : List Char
  after : List Char
  startsLine : before = [] ∨ before.getLast? = some '\n'

namespace Frame

/-- The longer text. -/
def around (f : Frame) (source : List Char) : List Char := f.before ++ source ++ f.after

/-- How far along in the longer text the offsets are. -/
def bytes (f : Frame) : Nat := Text.byteLength f.before

/-- How far down in the longer text the lines are. -/
def lines (f : Frame) : Nat := f.before.count '\n'

/-- The characters since the start of a line are the same, since that line starts in the text. -/
theorem column_around (f : Frame) (text : List Char) :
    ((f.before ++ text).reverse.takeWhile (· != '\n')).length =
      (text.reverse.takeWhile (· != '\n')).length := by
  have hstop : f.before.reverse.takeWhile (· != '\n') = [] := by
    rcases f.startsLine with h | h
    · rw [h]
      rfl
    · obtain ⟨rest, hrest⟩ := List.getLast?_eq_some_iff.mp h
      rw [hrest]
      simp
  rw [List.reverse_append, List.takeWhile_append, hstop]
  split <;> simp_all

/-- A place in the text is found further along and further down, in the same column. -/
theorem ofOffset_around (f : Frame) {source : List Char} {offset : Nat}
    (h : offset ≤ Text.byteLength source ∨ f.after = []) :
    Position.ofOffset (f.around source) (offset + f.bytes) =
      (Position.ofOffset source offset).moved f.bytes f.lines := by
  have htake : Text.takeBytes (offset + f.bytes) (f.around source) =
      f.before ++ Text.takeBytes offset source := by
    rw [around, List.append_assoc, bytes, Text.takeBytes_add_append]
    rcases h with h | h
    · rw [Text.takeBytes_append_of_le _ _ _ h]
    · rw [h, List.append_nil]
  have hcolumn := f.column_around (Text.takeBytes offset source)
  simp only [Position.ofOffset_eq_afterText, htake, Position.afterText, Position.moved, hcolumn, lines,
    List.count_append, Position.mk.injEq, true_and, and_true]
  omega

end Frame

end RowRecipe
