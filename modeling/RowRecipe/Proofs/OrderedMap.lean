import Mathlib.Data.List.Perm.Subperm
import RowRecipe.OrderedMap

/-!
What is found in a map whose keys differ after an entry was set or erased, and which keys it has then.
Setting entries with different keys in turn keeps them as they are, in their order; two maps agree if
they find the same under the same keys, in whatever order they have them.
-/

namespace RowRecipe

universe u v

namespace Entries

variable {κ : Type u} {α : Type v} [DecidableEq κ]

theorem insert_of_notMem {key : κ} (value : α) {entries : List (κ × α)}
    (h : key ∉ entries.map Prod.fst) : insert key value entries = entries ++ [(key, value)] := by
  induction entries with
  | nil => rfl
  | cons p rest ih =>
      obtain ⟨k, a⟩ := p
      rw [List.map_cons, List.mem_cons, not_or] at h
      rw [insert, if_neg (Ne.symm h.1), ih h.2, List.cons_append]

theorem foldl_insert_of_nodup (done : List (κ × α)) {pairs : List (κ × α)}
    (h : ((done ++ pairs).map Prod.fst).Nodup) :
    pairs.foldl (fun entries p => insert p.1 p.2 entries) done = done ++ pairs := by
  induction pairs generalizing done with
  | nil => rw [List.foldl_nil, List.append_nil]
  | cons p rest ih =>
      have hnew : p.1 ∉ done.map Prod.fst := by
        rw [List.map_append, List.map_cons, List.nodup_append] at h
        exact fun hmem => h.2.2 _ hmem _ List.mem_cons_self rfl
      rw [List.append_cons] at h
      rw [List.foldl_cons, insert_of_notMem p.2 hnew, ih _ h, ← List.append_cons]

/-- Entries without a repeated key are kept as they are. -/
theorem ofList_of_nodup {pairs : List (κ × α)} (h : (pairs.map Prod.fst).Nodup) :
    ofList pairs = pairs :=
  foldl_insert_of_nodup [] h

/-- The entry of a key that stands only once is found. -/
theorem get?_of_mem {entries : List (κ × α)} (h : (entries.map Prod.fst).Nodup) {key : κ} {value : α}
    (hmem : (key, value) ∈ entries) : get? key entries = some value := by
  induction entries with
  | nil => cases hmem
  | cons p rest ih =>
      obtain ⟨k, a⟩ := p
      obtain ⟨hnew, hrest⟩ := List.nodup_cons.mp h
      rcases List.mem_cons.mp hmem with heq | hmem
      · obtain ⟨rfl, rfl⟩ := Prod.mk.inj heq
        exact if_pos rfl
      · have hne : k ≠ key := by
          rintro rfl
          exact hnew (List.mem_map.mpr ⟨_, hmem, rfl⟩)
        rw [get?, if_neg hne]
        exact ih hrest hmem

theorem mem_of_get? {entries : List (κ × α)} {key : κ} {value : α}
    (h : get? key entries = some value) : (key, value) ∈ entries := by
  induction entries with
  | nil => cases h
  | cons p rest ih =>
      obtain ⟨k, a⟩ := p
      rw [get?] at h
      split at h
      · rename_i hkey
        rw [hkey, Option.some.inj h]
        exact List.mem_cons_self
      · exact List.mem_cons_of_mem _ (ih h)

theorem get?_insert (key other : κ) (value : α) (entries : List (κ × α)) :
    get? key (insert other value entries) = if other = key then some value else get? key entries := by
  induction entries with
  | nil => rfl
  | cons p rest ih =>
      obtain ⟨k, a⟩ := p
      simp only [insert, get?]
      by_cases hk : k = other
      · rw [if_pos hk, get?, hk]
        split <;> rfl
      · rw [if_neg hk, get?, ih]
        by_cases hkey : k = key
        · rw [if_pos hkey, if_pos hkey, if_neg fun h => hk (hkey.trans h.symm)]
        · rw [if_neg hkey, if_neg hkey]

/-- The keys are those under which something is found. -/
theorem mem_keys_iff {key : κ} {entries : List (κ × α)} :
    key ∈ entries.map Prod.fst ↔ ∃ value, get? key entries = some value := by
  constructor
  · intro hkey
    rw [← Option.isSome_iff_exists]
    induction entries with
    | nil => cases hkey
    | cons p rest ih =>
        obtain ⟨k, a⟩ := p
        rw [get?]
        split
        · rfl
        · rename_i hne
          exact ih ((List.mem_cons.mp hkey).resolve_left (Ne.symm hne))
  · rintro ⟨value, hvalue⟩
    exact List.mem_map_of_mem (mem_of_get? hvalue)

theorem get?_eq_none {key : κ} {entries : List (κ × α)} (h : key ∉ entries.map Prod.fst) :
    get? key entries = none := by
  rw [Option.eq_none_iff_forall_ne_some]
  exact fun value hvalue => h (mem_keys_iff.mpr ⟨value, hvalue⟩)

theorem get?_erase {entries : List (κ × α)} (h : (entries.map Prod.fst).Nodup) (key key' : κ) :
    get? key' (erase key entries) = if key = key' then none else get? key' entries := by
  induction entries with
  | nil => simp [erase, get?]
  | cons p rest ih =>
      obtain ⟨k, a⟩ := p
      obtain ⟨hmem, hrest⟩ := List.nodup_cons.mp h
      by_cases hk : k = key
      · subst hk
        by_cases hkey : k = key'
        · subst hkey
          rw [erase, if_pos rfl, if_pos rfl, get?_eq_none hmem]
        · rw [erase, if_pos rfl, if_neg hkey, get?, if_neg hkey]
      · simp only [erase, if_neg hk, get?, ih hrest]
        by_cases hkey : k = key'
        · rw [if_pos hkey, if_pos hkey, if_neg fun h => hk (hkey.trans h.symm)]
        · rw [if_neg hkey, if_neg hkey]

theorem get?_filter (keep : κ → Bool) (entries : List (κ × α)) (key : κ) :
    get? key (entries.filter fun p => keep p.1) = if keep key then get? key entries else none := by
  induction entries with
  | nil => simp [get?]
  | cons p rest ih =>
      obtain ⟨k, a⟩ := p
      by_cases hk : k = key
      · subst hk
        by_cases hkeep : keep k <;> simp_all [get?]
      · by_cases hkeep : keep k <;> simp_all [get?]

theorem mem_of_mem_insert {key : κ} {value : α} {entries : List (κ × α)} {p : κ × α}
    (h : p ∈ insert key value entries) : p = (key, value) ∨ p ∈ entries := by
  induction entries with
  | nil => exact .inl (List.mem_singleton.mp h)
  | cons q rest ih =>
      obtain ⟨k, a⟩ := q
      rw [insert] at h
      split at h
      · rcases List.mem_cons.mp h with rfl | hrest
        · exact .inl rfl
        · exact .inr (List.mem_cons_of_mem _ hrest)
      · rcases List.mem_cons.mp h with rfl | hrest
        · exact .inr List.mem_cons_self
        · exact (ih hrest).imp_right (List.mem_cons_of_mem _)

/-- Setting entries in turn makes up no entry. -/
theorem mem_of_mem_ofList {pairs : List (κ × α)} {p : κ × α} (h : p ∈ ofList pairs) : p ∈ pairs := by
  have hfold : ∀ {done : List (κ × α)},
      p ∈ pairs.foldl (fun entries q => insert q.1 q.2 entries) done → p ∈ done ∨ p ∈ pairs := by
    clear h
    induction pairs with
    | nil => exact fun h => .inl h
    | cons q rest ih =>
        intro done h
        rcases ih h with hdone | hrest
        · rcases mem_of_mem_insert hdone with rfl | hdone
          · exact .inr List.mem_cons_self
          · exact .inl hdone
        · exact .inr (List.mem_cons_of_mem _ hrest)
  exact (hfold h).resolve_left (by simp)

section Agreement

variable {β : Type v} {same : α → β → Bool} {a : List (κ × α)} {b : List (κ × β)}

/-- Entries agree if they hold the same keys and what they hold under a key agrees. -/
theorem agree_eq_true_iff (ha : (a.map Prod.fst).Nodup) (hb : (b.map Prod.fst).Nodup) :
    agree same a b = true ↔ (∀ key, key ∈ a.map Prod.fst ↔ key ∈ b.map Prod.fst) ∧
      ∀ key x y, get? key a = some x → get? key b = some y → same x y = true := by
  rw [agree, Bool.and_eq_true, beq_iff_eq, List.all_eq_true]
  constructor
  · rintro ⟨hlength, hvalues⟩
    have hfound : ∀ p ∈ a, ∃ y, get? p.1 b = some y ∧ same p.2 y = true := by
      intro p hp
      have hvalue := hvalues p hp
      split at hvalue
      · exact ⟨_, by assumption, hvalue⟩
      · cases hvalue
    have hsubset : a.map Prod.fst ⊆ b.map Prod.fst := by
      intro key hkey
      obtain ⟨p, hp, rfl⟩ := List.mem_map.mp hkey
      obtain ⟨y, hy, -⟩ := hfound p hp
      exact mem_keys_iff.mpr ⟨y, hy⟩
    -- Distinct keys among as many others are all of them.
    have hperm : (a.map Prod.fst).Perm (b.map Prod.fst) :=
      (List.subperm_of_subset ha hsubset).perm_of_length_le (by simp [hlength])
    refine ⟨fun key => hperm.mem_iff, fun key x y hx hy => ?_⟩
    obtain ⟨y', hy', hsame⟩ := hfound _ (mem_of_get? hx)
    rw [hy] at hy'
    rwa [Option.some.inj hy']
  · rintro ⟨hkeys, hvalues⟩
    have hperm : (a.map Prod.fst).Perm (b.map Prod.fst) :=
      (List.perm_ext_iff_of_nodup ha hb).mpr hkeys
    refine ⟨by simpa only [List.length_map] using hperm.length_eq, fun p hp => ?_⟩
    have hx := get?_of_mem ha hp
    obtain ⟨y, hy⟩ := mem_keys_iff.mp ((hkeys p.1).mp (mem_keys_iff.mpr ⟨p.2, hx⟩))
    simp only [hy]
    exact hvalues p.1 p.2 y hx hy

end Agreement

end Entries

theorem OrderedMap.entries_ofList {κ : Type u} {α : Type v} [DecidableEq κ]
    (pairs : List (κ × α)) : (ofList pairs).entries = Entries.ofList pairs := by
  have hfold : ∀ (m : OrderedMap κ α), (pairs.foldl (fun m p => m.insert p.1 p.2) m).entries =
      pairs.foldl (fun entries p => Entries.insert p.1 p.2 entries) m.entries := by
    induction pairs with
    | nil => exact fun m => rfl
    | cons p rest ih => exact fun m => ih (m.insert p.1 p.2)
  exact hfold empty

theorem Entries.nodup_ofList {κ : Type u} {α : Type v} [DecidableEq κ] (pairs : List (κ × α)) :
    ((ofList pairs).map Prod.fst).Nodup := by
  rw [← OrderedMap.entries_ofList]
  exact (OrderedMap.ofList pairs).distinct

namespace OrderedMap

variable {κ : Type u} {α : Type v} [DecidableEq κ]

theorem get?_insert (m : OrderedMap κ α) (key other : κ) (value : α) :
    (m.insert other value).get? key = if other = key then some value else m.get? key :=
  Entries.get?_insert key other value m.entries

/-- After entries are set in turn, a key has the value that it was given last. -/
theorem get?_foldl_insert {pairs : List (κ × α)} {m : OrderedMap κ α} {key : κ} {value : α} :
    (pairs.foldl (fun m p => m.insert p.1 p.2) m).get? key = some value ↔
      (∃ before after, pairs = before ++ (key, value) :: after ∧ key ∉ after.map Prod.fst) ∨
        key ∉ pairs.map Prod.fst ∧ m.get? key = some value := by
  induction pairs generalizing m with
  | nil => simp
  | cons p rest ih =>
      obtain ⟨k, a⟩ := p
      rw [List.foldl_cons, ih, get?_insert]
      constructor
      · rintro (⟨before, after, rfl, hafter⟩ | ⟨hrest, hvalue⟩)
        · exact .inl ⟨(k, a) :: before, after, rfl, hafter⟩
        · split at hvalue
          · rename_i hk
            obtain rfl := Option.some.inj hvalue
            exact .inl ⟨[], rest, by rw [← hk, List.nil_append], hrest⟩
          · rename_i hk
            rw [List.map_cons, List.mem_cons, not_or]
            exact .inr ⟨⟨Ne.symm hk, hrest⟩, hvalue⟩
      · rintro (⟨before, after, hpairs, hafter⟩ | ⟨hpairs, hvalue⟩)
        · rcases List.cons_eq_append_iff.mp hpairs with ⟨rfl, hcons⟩ | ⟨before, rfl, rfl⟩
          · obtain ⟨hp, rfl⟩ := List.cons.inj hcons
            obtain ⟨rfl, rfl⟩ := Prod.mk.inj hp
            exact .inr ⟨hafter, if_pos rfl⟩
          · exact .inl ⟨before, after, rfl, hafter⟩
        · rw [List.map_cons, List.mem_cons, not_or] at hpairs
          exact .inr ⟨hpairs.2, by rw [if_neg (Ne.symm hpairs.1), hvalue]⟩

/-- After entries are set in turn, their keys are there, and those that were there before. -/
theorem contains_foldl_insert {pairs : List (κ × α)} {m : OrderedMap κ α} {key : κ} :
    (pairs.foldl (fun m p => m.insert p.1 p.2) m).contains key = true ↔
      key ∈ pairs.map Prod.fst ∨ m.contains key = true := by
  induction pairs generalizing m with
  | nil => simp
  | cons p rest ih =>
      have hinsert : (m.insert p.1 p.2).contains key = true ↔ key = p.1 ∨ m.contains key = true := by
        rw [contains, contains, get?_insert]
        by_cases hkey : p.1 = key
        · simp [hkey]
        · simp [hkey, Ne.symm hkey]
      rw [List.foldl_cons, ih, hinsert, List.map_cons, List.mem_cons]
      tauto

end OrderedMap

end RowRecipe
