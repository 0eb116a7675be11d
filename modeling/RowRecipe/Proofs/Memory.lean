import RowRecipe.Context
import RowRecipe.Proofs.OrderedMap

/-!
What is found in memory after it was written to. A write changes one entry of one directive, so the
entries of all other directives stay, and the entries of two directives that are alike stay alike
when both write the same. This holds whatever the positions of the directives are.
-/

namespace RowRecipe

namespace Memory

theorem get?_insert (m : Memory) (lifetime : Lifetime) (owner : Nat) (key : String) (cell : Cell)
    (lifetime' : Lifetime) (owner' : Nat) (key' : String) :
    (m.insert lifetime owner key cell).get? lifetime' owner' key' =
      if (lifetime, owner, key) = (lifetime', owner', key') then some cell
      else m.get? lifetime' owner' key' :=
  Entries.get?_insert _ _ _ _

theorem get?_erase (m : Memory) (lifetime : Lifetime) (owner : Nat) (key : String)
    (lifetime' : Lifetime) (owner' : Nat) (key' : String) :
    (m.erase lifetime owner key).get? lifetime' owner' key' =
      if (lifetime, owner, key) = (lifetime', owner', key') then none
      else m.get? lifetime' owner' key' :=
  Entries.get?_erase m.entries.distinct _ _

theorem get?_clear (m : Memory) (lifetime lifetime' : Lifetime) (owner : Nat) (key : String) :
    (m.clear lifetime).get? lifetime' owner key =
      if lifetime' = lifetime then none else m.get? lifetime' owner key := by
  let keep : Lifetime × Nat × String → Bool := fun place => place.1 != lifetime
  refine (Entries.get?_filter keep m.entries.entries (lifetime', owner, key)).trans ?_
  by_cases h : lifetime' = lifetime
  · rw [if_pos h, if_neg (by simp [keep, h])]
  · rw [if_neg h, if_pos (by simp [keep, h])]
    rfl

/-- A directive leaves the entries of all others alone. -/
theorem get?_write_of_ne {owner owner' : Nat} (h : owner' ≠ owner) (m : Memory) (w : Write)
    (lifetime : Lifetime) (key : String) :
    (m.write owner w).get? lifetime owner' key = m.get? lifetime owner' key := by
  have hplace : ∀ l k, (l, owner, k) ≠ (lifetime, owner', key) := by
    intro l k hplace
    exact h (Prod.mk.inj (Prod.mk.inj hplace).2).1.symm
  cases w with
  | set l k cell => rw [write, get?_insert, if_neg (hplace l k)]
  | forget l k => rw [write, get?_erase, if_neg (hplace l k)]

theorem get?_writeAll_of_ne {owner owner' : Nat} (h : owner' ≠ owner) (m : Memory)
    (writes : List Write) (lifetime : Lifetime) (key : String) :
    (m.writeAll owner writes).get? lifetime owner' key = m.get? lifetime owner' key := by
  induction writes generalizing m with
  | nil => rfl
  | cons w rest ih => exact (ih (m.write owner w)).trans (get?_write_of_ne h m w lifetime key)

/-- A write makes of entries that are alike entries that are alike, wherever their owners stand. -/
theorem get?_write_congr {m m' : Memory} {owner owner' : Nat}
    (h : ∀ lifetime key, m.get? lifetime owner key = m'.get? lifetime owner' key) (w : Write)
    (lifetime : Lifetime) (key : String) :
    (m.write owner w).get? lifetime owner key = (m'.write owner' w).get? lifetime owner' key := by
  have hplace : ∀ l k (o : Nat), (l, o, k) = (lifetime, o, key) ↔ l = lifetime ∧ k = key := by
    intro l k o
    rw [Prod.mk.injEq, Prod.mk.injEq]
    exact and_congr_right fun _ => and_iff_right rfl
  cases w with
  | set l k cell => simp only [write, get?_insert, hplace, h]
  | forget l k => simp only [write, get?_erase, hplace, h]

theorem get?_writeAll_congr {m m' : Memory} {owner owner' : Nat}
    (h : ∀ lifetime key, m.get? lifetime owner key = m'.get? lifetime owner' key)
    (writes : List Write) (lifetime : Lifetime) (key : String) :
    (m.writeAll owner writes).get? lifetime owner key =
      (m'.writeAll owner' writes).get? lifetime owner' key := by
  induction writes generalizing m m' with
  | nil => exact h lifetime key
  | cons w rest ih => exact ih (get?_write_congr h w)

end Memory

end RowRecipe
