import RowRecipe.Proofs.Binary64.Rounding
import RowRecipe.Json.Basic
import RowRecipe.Proofs.OrderedMap
import RowRecipe.Row.Basic

/-!
Rows from JSON and back. A cell has whole numbers with a sign only. A larger whole number, which JSON
still has, becomes a floating-point one on its way into a row and comes back as that; everything else
comes back as it went in.
-/

namespace RowRecipe

namespace Json

/-- A whole number too large for a sign and 63 bits. -/
def IsLarge (json : Json) : Prop := ∃ i : Int, json = ofInt i ∧ 2 ^ 63 ≤ i

/-- What a row keeps of a value. -/
def kept : Json → Json
  | .number (.integer i) =>
      if i < 2 ^ 63 then .number (.integer i) else .number (.real (Binary64.ofInt i))
  | value => value

/-- Everything is kept but large whole numbers. -/
theorem kept_eq_self_iff (value : Json) : value.kept = value ↔ ¬ value.IsLarge := by
  constructor
  · rintro hkept ⟨i, rfl, hi⟩
    have hlarge : (ofInt i).kept = .number (.real (Binary64.ofInt i)) := if_neg (by omega)
    rw [hlarge] at hkept
    cases hkept
  · intro hsmall
    unfold kept
    split
    · rename_i i
      apply if_pos
      by_contra hi
      exact hsmall ⟨i, rfl, by omega⟩
    · rfl

end Json

/-- A cell gives back the value it was made from, a large whole number as the nearest floating-point
one. -/
theorem Cell.json_eq_kept {value : Json} (hproper : value.Proper) (hscalar : value.IsScalar) :
    (Cell.ofJson value).json = value.kept := by
  cases hproper with
  | null => rfl
  | bool => rfl
  | string => rfl
  | array => exact hscalar.elim
  | object => exact hscalar.elim
  | @number n hn =>
      cases n with
      | real x =>
          have hfinite : x.isFinite = true := hn
          change (Json.ofBinary64? x).getD .null = _
          rw [Json.ofBinary64?, if_pos hfinite]
          rfl
      | integer i =>
          obtain ⟨hlow, hhigh⟩ := hn
          by_cases hi : i < 2 ^ 63
          · have hsigned : Json.Number.signed64? (.integer i) = some i := by
              simp only [Json.Number.signed64?, hlow, hi, decide_true, Bool.and_self, if_true]
            simp only [Cell.ofJson, hsigned, Json.kept, if_pos hi]
            rfl
          · have hsigned : Json.Number.signed64? (.integer i) = none := by
              simp only [Json.Number.signed64?, hi, decide_false, Bool.and_false]
              rfl
            have hfinite : (Binary64.ofInt i).isFinite = true :=
              Binary64.isFinite_ofInt (by omega)
            simp only [Cell.ofJson, hsigned, Json.kept, if_neg hi]
            change (Json.ofBinary64? (Binary64.ofInt i)).getD .null = _
            rw [Json.ofBinary64?, if_pos hfinite]
            rfl

namespace Row

/-- A row made from members with distinct names gives them back in their order. -/
theorem json_ofMembers {members : List (String × Json)} (h : (members.map Prod.fst).Nodup) :
    (ofList (members.map fun m => (m.1, Cell.ofJson m.2))).json =
      .object (members.map fun m => (m.1, (Cell.ofJson m.2).json)) := by
  have hdistinct : ((members.map fun m => (m.1, Cell.ofJson m.2)).map Prod.fst).Nodup := by
    rw [List.map_map]
    exact h
  rw [json, toList, ofList, OrderedMap.entries_ofList, Entries.ofList_of_nodup hdistinct,
    List.map_map]
  rfl

/-- A row from a JSON object comes back with the same keys in the same order. Every value comes back
as it was, except that a whole number from 2^63 on comes back as the floating-point value nearest to
it; so the object as a whole comes back exactly when it has no such number. -/
theorem json_ofJson {members : List (String × Json)} (hproper : (Json.object members).Proper)
    (hscalar : ∀ m ∈ members, m.2.IsScalar) :
    ∃ row, ofJson (.object members) = .ok row ∧
      row.json = .object (members.map fun m => (m.1, m.2.kept)) ∧
      (row.json = .object members ↔ ∀ m ∈ members, ¬ m.2.IsLarge) := by
  have hjson : (ofList (members.map fun m => (m.1, Cell.ofJson m.2))).json =
      .object (members.map fun m => (m.1, m.2.kept)) := by
    cases hproper with
    | object hdistinct hvalues =>
        rw [json_ofMembers hdistinct]
        refine congrArg Json.object (List.map_congr_left fun m hm => ?_)
        exact congrArg (Prod.mk m.1) (Cell.json_eq_kept (hvalues m hm) (hscalar m hm))
  refine ⟨_, rfl, hjson, ?_⟩
  rw [hjson, Json.object.injEq]
  have hsame : (members.map fun m => (m.1, m.2.kept)) = members ↔
      ∀ m ∈ members, (m.1, m.2.kept) = m := by
    conv_lhs => rw [← List.map_id members, List.map_map]
    exact List.map_inj_left
  rw [hsame]
  refine forall₂_congr fun m _ => ?_
  rw [← Json.kept_eq_self_iff, Prod.ext_iff]
  exact and_iff_right rfl

/-- The largest whole number without a sign, next to the largest with one. -/
theorem json_ofJson_largest :
    ∃ row, ofJson (.object [("id", Json.ofInt (2 ^ 64 - 1)), ("n", Json.ofInt (2 ^ 63 - 1))]) =
        .ok row ∧
      row.json = .object [("id", .number (.real (Binary64.ofInt (2 ^ 64 - 1)))),
        ("n", Json.ofInt (2 ^ 63 - 1))] := by
  have hproper : (Json.object
      [("id", Json.ofInt (2 ^ 64 - 1)), ("n", Json.ofInt (2 ^ 63 - 1))]).Proper := by
    refine .object (by decide) ?_
    rw [List.forall_mem_cons, List.forall_mem_singleton]
    exact ⟨.number ⟨by decide, by decide⟩, .number ⟨by decide, by decide⟩⟩
  have hscalar : ∀ m ∈ [("id", Json.ofInt (2 ^ 64 - 1)), ("n", Json.ofInt (2 ^ 63 - 1))],
      m.2.IsScalar := by
    rw [List.forall_mem_cons, List.forall_mem_singleton]
    exact ⟨trivial, trivial⟩
  obtain ⟨row, hrow, hjson, -⟩ := json_ofJson hproper hscalar
  exact ⟨row, hrow, hjson⟩

/-- The largest whole number without a sign does not come back. -/
theorem json_ofJson_ne :
    (Json.object [("id", Json.ofInt (2 ^ 64 - 1))]).Proper ∧
      ∃ row, ofJson (.object [("id", Json.ofInt (2 ^ 64 - 1))]) = .ok row ∧
        row.json ≠ .object [("id", Json.ofInt (2 ^ 64 - 1))] := by
  have hproper : (Json.ofInt (2 ^ 64 - 1)).Proper := .number ⟨by decide, by decide⟩
  have hdistinct : ([("id", Json.ofInt (2 ^ 64 - 1))].map Prod.fst).Nodup := by
    decide
  refine ⟨.object hdistinct (List.forall_mem_singleton.mpr hproper), _, rfl, ?_⟩
  rw [json_ofMembers hdistinct, List.map_singleton]
  intro hsame
  rw [Json.object.injEq, List.cons.injEq] at hsame
  have hkept := (Cell.json_eq_kept hproper trivial).symm.trans (Prod.mk.inj hsame.1).2
  exact (Json.kept_eq_self_iff _).mp hkept ⟨2 ^ 64 - 1, rfl, by decide⟩

end Row

end RowRecipe
