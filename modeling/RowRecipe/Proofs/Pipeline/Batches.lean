import Mathlib.Algebra.Order.Floor.Div
import RowRecipe.Pipeline.Batches

/-!
How a list is cut into batches: from its start, into batches that are full, and one more of what is
left. It makes no difference whether the whole list is there to be cut or a batch is filled element by
element. The batches are made wherever there is room for a whole one, and only there.
-/

namespace RowRecipe

/-- The batches are the elements in their order. All but the last one are full, and the last one is
not empty. -/
structure Cuts {α : Type} (size : Nat) (elements : List α) (batches : List (List α)) : Prop where
  flatten : batches.flatten = elements
  full : ∀ batch ∈ batches.dropLast, batch.length = size
  bounds : ∀ batch ∈ batches, 0 < batch.length ∧ batch.length ≤ size

variable {α : Type} (size : Nat) (elements : List α)

section Room

variable {room : Room} {size : Nat} {elements : List α}

theorem intoBatches?_eq_some {batches : List (List α)} :
    intoBatches? room size elements = some batches ↔
      room.holds size = true ∧ batches = cut size elements := by
  rw [intoBatches?, Option.ite_none_right_eq_some, Option.some.injEq, eq_comm (a := batches)]

theorem intoBatches?_eq_none :
    intoBatches? room size elements = none ↔ room.holds size = false := by
  cases hroom : room.holds size <;> simp [intoBatches?, hroom]

end Room

/-- Batches put together again are the list that was cut. -/
theorem cut_flatten : (cut size elements).flatten = elements := by
  fun_induction cut size elements with
  | case1 => rfl
  | case2 a rest hzero => exact List.append_nil _
  | case3 a rest hzero ih => rw [List.flatten_cons, ih, List.take_append_drop]

/-- Batches behind a batch are what was left after it had been filled. -/
theorem cut_full {size : Nat} (hsize : 0 < size) (elements : List α) :
    ∀ batch ∈ (cut size elements).dropLast, batch.length = size := by
  fun_induction cut size elements with
  | case1 => exact List.forall_mem_nil _
  | case2 a rest hzero => exact absurd hzero (Nat.ne_of_gt hsize)
  | case3 a rest hzero ih =>
      cases hmore : cut size ((a :: rest).drop size) with
      | nil => exact List.forall_mem_nil _
      | cons next more =>
          have hleft : (a :: rest).drop size ≠ [] := by
            intro hnone
            rw [hnone, cut] at hmore
            cases hmore
          have hlong : size < (a :: rest).length := by
            simpa [List.drop_eq_nil_iff] using hleft
          rw [hmore] at ih
          rw [List.dropLast_cons_cons]
          exact List.forall_mem_cons.mpr ⟨List.length_take_of_le (Nat.le_of_lt hlong), ih⟩

theorem cut_bounds {size : Nat} (hsize : 0 < size) (elements : List α) :
    ∀ batch ∈ cut size elements, 0 < batch.length ∧ batch.length ≤ size := by
  fun_induction cut size elements with
  | case1 => exact List.forall_mem_nil _
  | case2 a rest hzero => exact absurd hzero (Nat.ne_of_gt hsize)
  | case3 a rest hzero ih =>
      have hfirst : ((a :: rest).take size).length = min size (rest.length + 1) := List.length_take
      exact List.forall_mem_cons.mpr ⟨by omega, ih⟩

theorem cut_cuts {size : Nat} (hsize : 0 < size) (elements : List α) :
    Cuts size elements (cut size elements) where
  flatten := cut_flatten size elements
  full := cut_full hsize elements
  bounds := cut_bounds hsize elements

/-- A batch that is full stands first. -/
theorem cut_full_append {size : Nat} {batch : List α} (hsize : 0 < size)
    (hfull : batch.length = size) (rest : List α) :
    cut size (batch ++ rest) = batch :: cut size rest := by
  cases batch with
  | nil => exact absurd hfull (Nat.ne_of_lt hsize)
  | cons a more =>
      rw [List.cons_append, cut, dif_neg (Nat.ne_of_gt hsize), ← List.cons_append,
        List.take_left' hfull, List.drop_left' hfull]

/-- Elements for which one batch is enough are that batch. -/
theorem cut_short {size : Nat} {elements : List α} (hsome : elements ≠ [])
    (hshort : elements.length < size) : cut size elements = [elements] := by
  cases elements with
  | nil => exact absurd rfl hsome
  | cons a rest =>
      have hshort' := Nat.le_of_lt hshort
      rw [cut, dif_neg (by omega), List.take_of_length_le hshort',
        List.drop_of_length_le hshort', cut]

/-- There are as many batches as it takes to hold all elements. -/
theorem cut_length {size : Nat} (hsize : 0 < size) (elements : List α) :
    (cut size elements).length = elements.length ⌈/⌉ size := by
  fun_induction cut size elements with
  | case1 => exact (zero_ceilDiv size).symm
  | case2 a rest hzero => exact absurd hzero (Nat.ne_of_gt hsize)
  | case3 a rest hzero ih =>
      rw [List.length_cons, ih, List.length_drop, List.length_cons, Nat.ceilDiv_eq_add_pred_div,
        Nat.ceilDiv_eq_add_pred_div]
      have hone : (rest.length + 1 + size - 1) / size = rest.length / size + 1 := by
        rw [Nat.add_right_comm, Nat.add_sub_cancel, Nat.add_div_right _ hsize]
      rw [hone]
      by_cases hmore : size ≤ rest.length + 1
      · rw [Nat.sub_add_cancel hmore, Nat.add_sub_cancel]
      · have hnone : rest.length + 1 - size = 0 := by omega
        rw [hnone, Nat.zero_add, Nat.div_eq_of_lt (by omega), Nat.div_eq_of_lt (by omega)]

/-- Fills a batch element by element and begins another one when it is full. What is in it at the end is
the last batch. -/
def fillBatches (size : Nat) : List α → List α → List (List α)
  | current, [] => if current.isEmpty then [] else [current]
  | current, a :: rest =>
      if (current ++ [a]).length = size then (current ++ [a]) :: fillBatches size [] rest
      else fillBatches size (current ++ [a]) rest

/-- With a batch begun, elements fill it as if they came behind those that are in it. -/
theorem fillBatches_eq {size : Nat} {current : List α} (hbegun : current.length < size)
    (elements : List α) : fillBatches size current elements = cut size (current ++ elements) := by
  induction elements generalizing current with
  | nil =>
      rw [fillBatches, List.append_nil]
      by_cases hsome : current = []
      · rw [hsome, cut]
        rfl
      · rw [if_neg (by rwa [List.isEmpty_iff]), cut_short hsome hbegun]
  | cons a rest ih =>
      have hlength : (current ++ [a]).length = current.length + 1 := List.length_append
      rw [fillBatches, List.append_cons current a rest]
      split
      · rename_i hfull
        have hsize : 0 < size := Nat.zero_lt_of_lt hbegun
        have hnext := @ih [] hsize
        rw [hnext, List.nil_append, cut_full_append hsize hfull]
      · exact ih (by omega)

end RowRecipe
