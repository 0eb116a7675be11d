import Mathlib.Data.List.Induction
import RowRecipe.Proofs.OrderedMap
import RowRecipe.Row.Basic

/-!
Rows after any changes. What a row holds and in which order can be read off the changes that made it:
a column has the cell that it was given last, unless it was removed after that, and its place is that
of the change that brought it. The order is for those who list a row; two rows are equal if they hold
equal cells in the same columns.
-/

namespace RowRecipe.Row

/-- A change of a row. -/
inductive Change where
  | set (name : String) (cell : Cell)
  | remove (name : String)

/-- The column that is changed. -/
def Change.name : Change → String
  | .set name _ | .remove name => name

/-- The row after a change. -/
def change (row : Row) : Change → Row
  | .set name cell => row.set name cell
  | .remove name => (row.takeOut name).2

/-- The row after some changes. -/
def changeAll (row : Row) (changes : List Change) : Row := changes.foldl change row

/-- The names of the columns in their order. -/
def names (row : Row) : List String := row.columns.keys

/-- The last change of the column gives it the cell. -/
def Gives (changes : List Change) (name : String) (cell : Cell) : Prop :=
  ∃ before after, changes = before ++ .set name cell :: after ∧
    ∀ change ∈ after, change.name ≠ name

/-- The change at the place sets the column while it is absent, and no later one removes it. -/
def Brings (changes : List Change) (name : String) (place : Nat) : Prop :=
  ∃ before cell after, changes = before ++ .set name cell :: after ∧ before.length = place ∧
    (∀ other, ¬ Gives before name other) ∧ .remove name ∉ after

/-- The one column was brought before the other. -/
def BringsFirst (changes : List Change) (name other : String) : Prop :=
  ∃ place place', place < place' ∧ Brings changes name place ∧ Brings changes other place'

/-- The row is the one that the changes make of a row without columns. -/
structure Reflects (row : Row) (changes : List Change) : Prop where
  /-- No name occurs twice. -/
  distinct : row.names.Nodup
  /-- The columns are those that were brought, each by one change. -/
  brought : ∀ name, name ∈ row.names ↔ ∃! place, Brings changes name place
  /-- They stand in the order in which they were brought. -/
  ordered : row.names.Pairwise (BringsFirst changes)
  /-- Each holds the cell that it was given last, and no other name has one. -/
  found : ∀ name cell, row.get? name = some cell ↔ Gives changes name cell
  /-- A column that is missing counts as empty. -/
  value : ∀ name cell, row.value name = cell ↔
    Gives changes name cell ∨ cell = .null ∧ ∀ other, ¬ Gives changes name other
  /-- Listed, they are their names in this order, each with its cell. -/
  listed : row.toList = row.names.map fun name => (name, row.value name)

variable {changes : List Change} {change : Change} {name other : String} {cell : Cell}
  {place place' : Nat}

/-- A list with one more element at its end is split at that element or at one in front of it. -/
theorem concat_eq_append_cons_iff {α : Type} {done before after : List α} {a b : α} :
    done ++ [a] = before ++ b :: after ↔
      after = [] ∧ done = before ∧ a = b ∨
        ∃ rest, after = rest ++ [a] ∧ done = before ++ b :: rest := by
  constructor
  · intro h
    rcases after.eq_nil_or_concat' with rfl | ⟨rest, last, rfl⟩
    · obtain ⟨hdone, hlast⟩ := List.append_inj' h rfl
      exact .inl ⟨rfl, hdone, List.singleton_inj.mp hlast⟩
    · rw [← List.cons_append, ← List.append_assoc] at h
      obtain ⟨hdone, hlast⟩ := List.append_inj' h rfl
      exact .inr ⟨rest, by rw [List.singleton_inj.mp hlast], hdone⟩
  · rintro (⟨rfl, rfl, rfl⟩ | ⟨rest, rfl, rfl⟩)
    · rfl
    · rw [List.append_assoc, List.cons_append]

theorem not_gives_nil : ¬ Gives [] name cell := by
  rintro ⟨before, after, h, -⟩
  exact List.append_ne_nil_of_right_ne_nil before (List.cons_ne_nil _ _) h.symm

/-- A change says what its own column holds, and leaves the others as they were. -/
theorem gives_concat : Gives (changes ++ [change]) name cell ↔
    if change.name = name then change = .set name cell else Gives changes name cell := by
  constructor
  · rintro ⟨before, after, hsplit, hafter⟩
    rcases concat_eq_append_cons_iff.mp hsplit with ⟨-, -, rfl⟩ | ⟨rest, rfl, rfl⟩
    · exact (if_pos rfl).mpr rfl
    · rw [if_neg (hafter change (List.mem_append_right _ List.mem_cons_self))]
      exact ⟨before, rest, rfl, fun c hc => hafter c (List.mem_append_left _ hc)⟩
  · intro h
    split at h
    · rw [h]
      exact ⟨changes, [], rfl, List.forall_mem_nil _⟩
    · rename_i hname
      obtain ⟨before, after, rfl, hafter⟩ := h
      refine ⟨before, after ++ [change], by rw [List.append_assoc, List.cons_append], ?_⟩
      exact List.forall_mem_append.mpr ⟨hafter, List.forall_mem_singleton.mpr hname⟩

theorem not_brings_nil : ¬ Brings [] name place := by
  rintro ⟨before, cell, after, h, -⟩
  exact List.append_ne_nil_of_right_ne_nil before (List.cons_ne_nil _ _) h.symm

/-- What brought a column still does unless the column is removed now; and a change that sets an absent
one brings it. -/
theorem brings_concat : Brings (changes ++ [change]) name place ↔
    Brings changes name place ∧ change ≠ .remove name ∨
      place = changes.length ∧ (∃ cell, change = .set name cell) ∧
        ∀ other, ¬ Gives changes name other := by
  constructor
  · rintro ⟨before, cell, after, hsplit, hplace, habsent, hkept⟩
    rcases concat_eq_append_cons_iff.mp hsplit with ⟨-, rfl, rfl⟩ | ⟨rest, rfl, rfl⟩
    · exact .inr ⟨hplace.symm, ⟨cell, rfl⟩, habsent⟩
    · rw [List.mem_append, List.mem_singleton, not_or] at hkept
      exact .inl ⟨⟨before, cell, rest, rfl, hplace, habsent, hkept.1⟩, Ne.symm hkept.2⟩
  · rintro (⟨⟨before, cell, after, rfl, hplace, habsent, hkept⟩, hchange⟩ |
      ⟨rfl, ⟨cell, rfl⟩, habsent⟩)
    · refine ⟨before, cell, after ++ [change], by rw [List.append_assoc, List.cons_append], hplace,
        habsent, ?_⟩
      rw [List.mem_append, List.mem_singleton, not_or]
      exact ⟨hkept, Ne.symm hchange⟩
    · exact ⟨changes, cell, [], rfl, rfl, habsent, List.not_mem_nil⟩

theorem Brings.lt (h : Brings changes name place) : place < changes.length := by
  obtain ⟨before, cell, after, rfl, rfl, -⟩ := h
  rw [List.length_append, List.length_cons]
  omega

/-- A column is brought exactly if it is given a cell. -/
theorem exists_brings_iff : (∃ place, Brings changes name place) ↔ ∃ cell, Gives changes name cell := by
  induction changes using List.reverseRecOn with
  | nil => exact ⟨fun ⟨_, h⟩ => absurd h not_brings_nil, fun ⟨_, h⟩ => absurd h not_gives_nil⟩
  | append_singleton changes change ih =>
      by_cases hname : change.name = name
      · simp only [brings_concat, gives_concat, if_pos hname]
        subst hname
        cases change with
        | set other cell =>
            refine iff_of_true ?_ ⟨cell, rfl⟩
            -- Either this change brings the column, or what brought it before still does.
            by_cases habsent : ∀ cell, ¬ Gives changes other cell
            · exact ⟨_, .inr ⟨rfl, ⟨cell, rfl⟩, habsent⟩⟩
            · obtain ⟨cell', hgives⟩ := not_forall_not.mp habsent
              obtain ⟨place, hplace⟩ := ih.mpr ⟨cell', hgives⟩
              exact ⟨place, .inl ⟨hplace, Change.noConfusion⟩⟩
        | remove other => simp [Change.name]
      · simp only [brings_concat, gives_concat, if_neg hname, ← ih]
        refine exists_congr fun place => ?_
        constructor
        · rintro (⟨hold, -⟩ | ⟨-, ⟨cell, rfl⟩, -⟩)
          · exact hold
          · exact absurd rfl hname
        · intro hold
          refine .inl ⟨hold, ?_⟩
          rintro rfl
          exact hname rfl

/-- Only one change brings a column. -/
theorem Brings.unique (h : Brings changes name place) (h' : Brings changes name place') :
    place = place' := by
  induction changes using List.reverseRecOn with
  | nil => exact absurd h not_brings_nil
  | append_singleton changes change ih =>
      rcases brings_concat.mp h with ⟨hold, -⟩ | ⟨rfl, -, habsent⟩ <;>
        rcases brings_concat.mp h' with ⟨hold', -⟩ | ⟨rfl, -, habsent'⟩
      · exact ih hold hold'
      · obtain ⟨cell, hgives⟩ := exists_brings_iff.mp ⟨_, hold⟩
        exact absurd hgives (habsent' cell)
      · obtain ⟨cell, hgives⟩ := exists_brings_iff.mp ⟨_, hold'⟩
        exact absurd hgives (habsent cell)
      · rfl

/-- Columns that are not removed keep their order. -/
theorem BringsFirst.concat (h : BringsFirst changes name other) (hname : change ≠ .remove name)
    (hother : change ≠ .remove other) : BringsFirst (changes ++ [change]) name other := by
  obtain ⟨place, place', hlt, hbrings, hbrings'⟩ := h
  exact ⟨place, place', hlt, brings_concat.mpr (.inl ⟨hbrings, hname⟩),
    brings_concat.mpr (.inl ⟨hbrings', hother⟩)⟩

/-- A column that is set while it is absent comes behind all others. -/
theorem bringsFirst_new (h : Brings changes name place)
    (habsent : ∀ cell, ¬ Gives changes other cell) :
    BringsFirst (changes ++ [.set other cell]) name other :=
  ⟨place, changes.length, h.lt, brings_concat.mpr (.inl ⟨h, Change.noConfusion⟩),
    brings_concat.mpr (.inr ⟨rfl, ⟨cell, rfl⟩, habsent⟩)⟩

theorem takeOut_eq (row : Row) (name : String) :
    row.takeOut name = (row.get? name, row.remove name) := by
  simp only [takeOut, OrderedMap.takeOut, Entries.takeOut_eq]
  rfl

theorem mem_names_iff {row : Row} : name ∈ row.names ↔ ∃ cell, row.get? name = some cell :=
  Entries.mem_keys_iff

/-- A column that is set keeps its place, and a new one comes last. -/
theorem names_set (row : Row) (name : String) (cell : Cell) :
    (row.set name cell).names = if name ∈ row.names then row.names else row.names ++ [name] :=
  Entries.keys_insert name cell row.columns.entries

/-- A column that is removed leaves the others in their order. -/
theorem names_takeOut (row : Row) (name : String) :
    (row.takeOut name).2.names = row.names.erase name := by
  rw [takeOut_eq]
  exact Entries.keys_erase name row.columns.entries

/-- A column that is removed and set again comes last. -/
theorem names_set_takeOut (row : Row) (name : String) (cell : Cell) :
    ((row.takeOut name).2.set name cell).names = row.names.erase name ++ [name] := by
  have hgone : name ∉ row.names.erase name := List.Nodup.not_mem_erase row.columns.distinct
  rw [names_set, names_takeOut, if_neg hgone]

theorem get?_change (row : Row) (change : Change) (name : String) (cell : Cell) :
    (row.change change).get? name = some cell ↔
      if change.name = name then change = .set name cell else row.get? name = some cell := by
  cases change with
  | set other value =>
      have hget : (row.set other value).get? name =
        if other = name then some value else row.get? name := Entries.get?_insert _ _ _ _
      change (row.set other value).get? name = some cell ↔ if other = name then _ else _
      rw [hget]
      split
      · rename_i hname
        simp [hname]
      · rfl
  | remove other =>
      have hget : (row.takeOut other).2.get? name =
          if other = name then none else row.get? name := by
        rw [takeOut_eq]
        exact Entries.get?_erase row.columns.distinct _ _
      change (row.takeOut other).2.get? name = some cell ↔ if other = name then _ else _
      rw [hget]
      split
      · simp
      · rfl

theorem changeAll_concat (row : Row) (changes : List Change) (change : Change) :
    row.changeAll (changes ++ [change]) = (row.changeAll changes).change change :=
  List.foldl_concat _ _ _ _

theorem get?_changeAll : (empty.changeAll changes).get? name = some cell ↔ Gives changes name cell := by
  induction changes using List.reverseRecOn generalizing name cell with
  | nil => exact iff_of_false nofun not_gives_nil
  | append_singleton changes change ih => rw [changeAll_concat, get?_change, gives_concat, ih]

theorem mem_names_changeAll :
    name ∈ (empty.changeAll changes).names ↔ ∃ place, Brings changes name place := by
  simp only [mem_names_iff, get?_changeAll, exists_brings_iff]

theorem names_changeAll : (empty.changeAll changes).names.Pairwise (BringsFirst changes) := by
  induction changes using List.reverseRecOn with
  | nil => exact List.Pairwise.nil
  | append_singleton changes change ih =>
      let row := empty.changeAll changes
      rw [changeAll_concat]
      cases change with
      | set other cell =>
          change (row.set other cell).names.Pairwise _
          have hold : row.names.Pairwise (BringsFirst (changes ++ [.set other cell])) :=
            ih.imp fun h => h.concat Change.noConfusion Change.noConfusion
          rw [names_set]
          split
          · exact hold
          · rename_i hnew
            have habsent : ∀ cell, ¬ Gives changes other cell := fun cell hgives =>
              hnew (mem_names_iff.mpr ⟨cell, get?_changeAll.mpr hgives⟩)
            refine List.pairwise_append.mpr ⟨hold, List.pairwise_singleton _ _, ?_⟩
            intro name hname last hlast
            obtain ⟨place, hplace⟩ := mem_names_changeAll.mp hname
            rw [List.mem_singleton.mp hlast]
            exact bringsFirst_new hplace habsent
      | remove other =>
          change (row.takeOut other).2.names.Pairwise _
          have hkept : ∀ name ∈ row.names.erase other, Change.remove other ≠ .remove name := by
            intro name hname hsame
            have hne := (row.columns.distinct.mem_erase_iff.mp hname).1
            exact hne (Change.remove.inj hsame).symm
          rw [names_takeOut]
          exact (ih.sublist List.erase_sublist).imp_of_mem fun hname hname' h =>
            h.concat (hkept _ hname) (hkept _ hname')

/-- The columns with their cells are the names in their order, each with what it holds. -/
theorem toList_eq (row : Row) : row.toList = row.names.map fun name => (name, row.value name) := by
  have hcells : ∀ p ∈ row.toList, (p.1, row.value p.1) = p := by
    intro p hp
    rw [value, get?, OrderedMap.get?, Entries.get?_of_mem row.columns.distinct hp, Option.getD_some]
  change _ = (row.toList.map Prod.fst).map _
  rw [List.map_map]
  exact ((List.map_congr_left hcells).trans (List.map_id _)).symm

theorem reflects_changeAll (changes : List Change) : (empty.changeAll changes).Reflects changes where
  distinct := (empty.changeAll changes).columns.distinct
  brought name := by
    rw [mem_names_changeAll]
    exact ⟨fun ⟨place, h⟩ => ⟨place, h, fun _ h' => h'.unique h⟩, fun ⟨place, h, _⟩ => ⟨place, h⟩⟩
  ordered := names_changeAll
  found _ _ := get?_changeAll
  value name cell := by
    simp only [← get?_changeAll, value]
    cases (empty.changeAll changes).get? name <;> simp [eq_comm]
  listed := toList_eq _

/-- Rows are ordered maps. However a row came about, its columns are those that were set and not removed
after that, with the cells that they were given last, in the order in which they came when they were
last absent. Taking a column out gives what was found in it and leaves the others in their order; setting
one that is present changes no place, and one that was taken out comes last when it is set again. Rows
are equal if they hold equal cells in the same columns, whatever the order of these. -/
theorem changeAll_exact :
    (∀ changes : List Change, (empty.changeAll changes).Reflects changes) ∧
      (∀ (row : Row) (name : String), (row.takeOut name).1 = row.get? name ∧
        (row.takeOut name).2.names = row.names.erase name ∧
        ∀ cell, (row.set name cell).names =
            (if name ∈ row.names then row.names else row.names ++ [name]) ∧
          ((row.takeOut name).2.set name cell).names = row.names.erase name ++ [name]) ∧
      ∀ a b : Row, a.same b = true ↔
        (∀ name, name ∈ a.names ↔ name ∈ b.names) ∧
          ∀ name x y, a.get? name = some x → b.get? name = some y → x.same y = true :=
  ⟨reflects_changeAll,
    fun row name => ⟨by rw [takeOut_eq], names_takeOut row name, fun cell =>
      ⟨names_set row name cell, names_set_takeOut row name cell⟩⟩,
    fun a b => Entries.agree_eq_true_iff a.columns.distinct b.columns.distinct⟩

/-- Only the column that was away comes last. -/
example : (empty.changeAll [.set "a" .null, .set "b" .null, .remove "a", .set "a" (.int 1),
    .set "b" (.int 2)]).names = ["b", "a"] := rfl

end RowRecipe.Row
