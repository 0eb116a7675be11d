/-!
Maps that remember in which order their keys came. Setting a key that is present keeps its place;
removing one keeps the order of the others. The operations are defined on plain lists of entries, so
that types nested in such lists can use them too; `OrderedMap` adds that keys never repeat.
-/

namespace RowRecipe

universe u v

namespace Entries

variable {κ : Type u} {α : Type v} [DecidableEq κ]

def get? (key : κ) : List (κ × α) → Option α
  | [] => none
  | (k, a) :: rest => if k = key then some a else get? key rest

/-- Sets a key: in its place if it is present, at the end otherwise. -/
def insert (key : κ) (value : α) : List (κ × α) → List (κ × α)
  | [] => [(key, value)]
  | (k, a) :: rest => if k = key then (key, value) :: rest else (k, a) :: insert key value rest

def erase (key : κ) : List (κ × α) → List (κ × α)
  | [] => []
  | (k, a) :: rest => if k = key then rest else (k, a) :: erase key rest

/-- Takes the entry of a key out: its value if there is one, and the entries that are left. -/
def takeOut (key : κ) : List (κ × α) → Option α × List (κ × α)
  | [] => (none, [])
  | (k, a) :: rest =>
      if k = key then (some a, rest)
      else
        let (found, left) := takeOut key rest
        (found, (k, a) :: left)

/-- The entries that result from setting the given ones in turn. -/
def ofList (pairs : List (κ × α)) : List (κ × α) :=
  pairs.foldl (fun entries p => insert p.1 p.2 entries) []

/-- The two hold the same keys, each with values that agree; their order does not matter. -/
def agree {β : Type v} (same : α → β → Bool) (a : List (κ × α)) (b : List (κ × β)) : Bool :=
  a.length == b.length && a.all fun p => match get? p.1 b with
    | some y => same p.2 y
    | none => false

/-- The keys after a key is set: the same ones, and the new one last if it was not among them. -/
theorem keys_insert (key : κ) (value : α) (entries : List (κ × α)) :
    (insert key value entries).map Prod.fst =
      if key ∈ entries.map Prod.fst then entries.map Prod.fst
      else entries.map Prod.fst ++ [key] := by
  induction entries with
  | nil => simp [insert]
  | cons p rest ih =>
      obtain ⟨k, a⟩ := p
      by_cases hk : k = key
      · simp [insert, hk]
      · simp only [insert, if_neg hk, List.map_cons, ih, List.mem_cons]
        by_cases hmem : key ∈ rest.map Prod.fst
        · rw [if_pos hmem, if_pos (Or.inr hmem)]
        · rw [if_neg hmem, if_neg (by rintro (h | h); exact hk h.symm; exact hmem h)]
          rfl

/-- The keys after a key is erased: the others, in their order. -/
theorem keys_erase (key : κ) (entries : List (κ × α)) :
    (erase key entries).map Prod.fst = (entries.map Prod.fst).erase key := by
  induction entries with
  | nil => rfl
  | cons p rest ih =>
      obtain ⟨k, a⟩ := p
      rw [erase, List.map_cons, List.erase_cons]
      by_cases hk : k = key
      · rw [if_pos hk, if_pos (beq_iff_eq.mpr hk)]
      · rw [if_neg hk, if_neg fun h => hk (beq_iff_eq.mp h), List.map_cons, ih]

theorem nodup_insert (key : κ) (value : α) (entries : List (κ × α))
    (h : (entries.map Prod.fst).Nodup) : ((insert key value entries).map Prod.fst).Nodup := by
  rw [keys_insert]
  split
  · exact h
  · rename_i hmem
    refine List.nodup_append.2 ⟨h, by simp, ?_⟩
    intro a ha b hb
    rw [List.mem_singleton] at hb
    rintro rfl
    exact hmem (hb ▸ ha)

theorem nodup_erase (key : κ) (entries : List (κ × α))
    (h : (entries.map Prod.fst).Nodup) : ((erase key entries).map Prod.fst).Nodup := by
  rw [keys_erase]
  exact h.erase key

/-- What is taken out is what was found under the key, and the rest is what erasing it leaves. -/
theorem takeOut_eq (key : κ) (entries : List (κ × α)) :
    takeOut key entries = (get? key entries, erase key entries) := by
  induction entries with
  | nil => rfl
  | cons p rest ih =>
      obtain ⟨k, a⟩ := p
      rw [takeOut, get?, erase, ih]
      split <;> rfl

end Entries

/-- Entries in the order in which their keys were first set, no key twice. -/
structure OrderedMap (κ : Type u) (α : Type v) where
  entries : List (κ × α)
  distinct : (entries.map Prod.fst).Nodup

namespace OrderedMap

variable {κ : Type u} {α : Type v}

def empty : OrderedMap κ α := ⟨[], List.nodup_nil⟩

instance : EmptyCollection (OrderedMap κ α) := ⟨empty⟩

instance : Inhabited (OrderedMap κ α) := ⟨empty⟩

def size (m : OrderedMap κ α) : Nat := m.entries.length

def isEmpty (m : OrderedMap κ α) : Bool := m.entries.isEmpty

def keys (m : OrderedMap κ α) : List κ := m.entries.map Prod.fst

/-- The map without the entries that a test refuses. -/
def filter (keep : κ → Bool) (m : OrderedMap κ α) : OrderedMap κ α :=
  ⟨m.entries.filter fun p => keep p.1,
    m.distinct.sublist (List.filter_sublist.map Prod.fst)⟩

variable [DecidableEq κ]

def get? (m : OrderedMap κ α) (key : κ) : Option α := Entries.get? key m.entries

def contains (m : OrderedMap κ α) (key : κ) : Bool := (m.get? key).isSome

def insert (m : OrderedMap κ α) (key : κ) (value : α) : OrderedMap κ α :=
  ⟨Entries.insert key value m.entries, Entries.nodup_insert key value m.entries m.distinct⟩

def erase (m : OrderedMap κ α) (key : κ) : OrderedMap κ α :=
  ⟨Entries.erase key m.entries, Entries.nodup_erase key m.entries m.distinct⟩

/-- Takes the entry of a key out: its value if there is one, and the map that is left. -/
def takeOut (m : OrderedMap κ α) (key : κ) : Option α × OrderedMap κ α :=
  ((Entries.takeOut key m.entries).1, ⟨(Entries.takeOut key m.entries).2, by
    rw [Entries.takeOut_eq]
    exact Entries.nodup_erase key m.entries m.distinct⟩)

def ofList (pairs : List (κ × α)) : OrderedMap κ α :=
  pairs.foldl (fun m p => m.insert p.1 p.2) empty

/-- Equality without regard to order. -/
def agree (same : α → α → Bool) (a b : OrderedMap κ α) : Bool :=
  Entries.agree same a.entries b.entries

end OrderedMap

end RowRecipe
