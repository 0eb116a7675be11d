import Mathlib.Data.List.Basic
import RowRecipe.Text.Utf8

/-!
Offsets into a text that is part of a longer one. An offset at which a text can be cut is the length
of some first part of it. Cutting at such offsets commutes with putting characters in front of the
text and behind it.
-/

namespace RowRecipe.Text

/-- The offset lies between two characters of the text, or at one of its ends. -/
def IsCut (source : List Char) (offset : Nat) : Prop :=
  ∃ first last, source = first ++ last ∧ offset = byteLength first

theorem IsCut.le {source : List Char} {offset : Nat} (h : IsCut source offset) :
    offset ≤ byteLength source := by
  obtain ⟨first, last, rfl, rfl⟩ := h
  rw [byteLength_append]
  exact Nat.le_add_right _ _

theorem takeBytes_append_of_le (n : Nat) (a b : List Char) (h : n ≤ byteLength a) :
    takeBytes n (a ++ b) = takeBytes n a := by
  induction a generalizing n with
  | nil =>
      obtain rfl : n = 0 := Nat.le_zero.mp h
      exact takeBytes_zero b
  | cons c rest ih =>
      cases n with
      | zero => rfl
      | succ n =>
          have hrest : n + 1 - c.utf8Size ≤ byteLength rest := by
            simp only [byteLength] at h
            omega
          simp only [List.cons_append, takeBytes, ih _ hrest]

theorem dropBytes_append_of_le (n : Nat) (a b : List Char) (h : n ≤ byteLength a) :
    dropBytes n (a ++ b) = dropBytes n a ++ b := by
  have hwhole := takeBytes_append_dropBytes n (a ++ b)
  rw [takeBytes_append_of_le n a b h] at hwhole
  have hfirst := takeBytes_append_dropBytes n a
  have hsame : takeBytes n a ++ dropBytes n (a ++ b) = takeBytes n a ++ (dropBytes n a ++ b) := by
    rw [hwhole, ← List.append_assoc, hfirst]
  exact List.append_cancel_left hsame

/-- Past a first part, an offset counts from where that part ends. -/
theorem takeBytes_add_append (a b : List Char) (n : Nat) :
    takeBytes (n + byteLength a) (a ++ b) = a ++ takeBytes n b := by
  induction a with
  | nil => rfl
  | cons c rest ih =>
      have hpos := c.utf8Size_pos
      obtain ⟨m, hm⟩ : ∃ m, n + byteLength (c :: rest) = m + 1 :=
        ⟨n + byteLength (c :: rest) - 1, by simp only [byteLength]; omega⟩
      have hrest : m + 1 - c.utf8Size = n + byteLength rest := by
        rw [← hm]
        simp only [byteLength]
        omega
      rw [hm, List.cons_append]
      simp only [takeBytes, hrest, ih, List.cons_append]

theorem dropBytes_add_append (a b : List Char) (n : Nat) :
    dropBytes (n + byteLength a) (a ++ b) = dropBytes n b := by
  have hwhole := takeBytes_append_dropBytes (n + byteLength a) (a ++ b)
  rw [takeBytes_add_append, List.append_assoc] at hwhole
  have hrest := List.append_cancel_left hwhole
  have hcut := takeBytes_append_dropBytes n b
  exact List.append_cancel_left (hrest.trans hcut.symm)

/-- Of two first parts of a text, the longer one starts with the shorter one. -/
theorem exists_append_of_le {before after first last : List Char}
    (h : before ++ after = first ++ last) (hle : byteLength before ≤ byteLength first) :
    ∃ middle, first = before ++ middle := by
  have hfirst : takeBytes (byteLength before) first = before := by
    rw [← takeBytes_append_of_le _ first last hle, ← h, takeBytes_byteLength_append]
  refine ⟨dropBytes (byteLength before) first, ?_⟩
  conv_lhs => rw [← takeBytes_append_dropBytes (byteLength before) first, hfirst]

/-- A part between two cuts is found between what stands before and behind it, and has the length
that the cuts say. -/
theorem slice_between {source : List Char} {start stop : Nat} (hstart : IsCut source start)
    (hstop : IsCut source stop) (hle : start ≤ stop) :
    source = takeBytes start source ++ slice source start stop ++ dropBytes stop source ∧
      byteLength (slice source start stop) = stop - start := by
  obtain ⟨first, last, hsource, rfl⟩ := hstop
  obtain ⟨before, after, hbefore, rfl⟩ := hstart
  have htake : takeBytes (byteLength before) source = before := by
    rw [hbefore, takeBytes_byteLength_append]
  obtain ⟨middle, rfl⟩ := exists_append_of_le (hbefore.symm.trans hsource) hle
  have hslice : slice source (byteLength before) (byteLength (before ++ middle)) = middle := by
    rw [slice, hsource, List.append_assoc, dropBytes_byteLength_append, byteLength_append,
      Nat.add_sub_cancel_left, takeBytes_byteLength_append]
  rw [hslice, htake]
  constructor
  · rw [hsource, dropBytes_byteLength_append]
  · rw [byteLength_append, Nat.add_sub_cancel_left]

theorem slice_of_le {source : List Char} {start stop : Nat} (h : stop ≤ start) :
    slice source start stop = [] := by
  rw [slice, Nat.sub_eq_zero_of_le h, takeBytes_zero]

/-- What is cut out of a text is found again when the text is part of a longer one. -/
theorem slice_append {source : List Char} {start stop : Nat} (before after : List Char)
    (hstart : IsCut source start) (hstop : IsCut source stop) :
    slice (before ++ source ++ after) (start + byteLength before) (stop + byteLength before) =
      slice source start stop := by
  have hdrop : dropBytes (start + byteLength before) (before ++ source ++ after) =
      dropBytes start source ++ after := by
    rw [List.append_assoc, dropBytes_add_append, dropBytes_append_of_le _ _ _ hstart.le]
  have hlength : stop - start ≤ byteLength (dropBytes start source) := by
    have hstop := hstop.le
    obtain ⟨first, last, rfl, rfl⟩ := hstart
    rw [dropBytes_byteLength_append]
    rw [byteLength_append] at hstop
    omega
  rw [slice, slice, hdrop, Nat.add_sub_add_right, takeBytes_append_of_le _ _ _ hlength]

end RowRecipe.Text
