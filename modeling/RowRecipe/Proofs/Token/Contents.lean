import RowRecipe.Proofs.Outcome
import RowRecipe.Token.Basic

/-!
What a token holds. Properties hold tokens again, so what holds of the tokens in a list of properties
is shown to hold of the properties, and for all other tokens directly.
-/

namespace RowRecipe.Token

/-- Induction on tokens, with properties being the only ones that hold tokens. -/
theorem induction_properties {motive : Token → Prop}
    (single : ∀ token : Token, token.kind ≠ .properties → motive token)
    (properties : ∀ entries : List (String × Token), (∀ e ∈ entries, motive e.2) →
      motive (.properties entries)) (token : Token) : motive token := by
  induction hsize : sizeOf token using Nat.strongRecOn generalizing token with
  | ind size ih =>
      subst hsize
      cases token with
      | properties entries =>
          refine properties entries fun e he => ih _ ?_ e.2 rfl
          have hentry := List.sizeOf_lt_of_mem he
          have htoken : sizeOf e.2 < sizeOf e := by
            obtain ⟨key, value⟩ := e
            simp only [Prod.mk.sizeOf_spec]
            omega
          simp only [Token.properties.sizeOf_spec]
          omega
      | _ => exact single _ (by simp [kind])

mutual

/-- The token itself, or for properties what their tokens consist of. -/
def leaves : Token → List Token
  | .properties entries => entryLeaves entries
  | token => [token]

def entryLeaves : List (String × Token) → List Token
  | [] => []
  | (_, value) :: rest => leaves value ++ entryLeaves rest

end

theorem mem_leaves_properties {entries : List (String × Token)} {leaf : Token} :
    leaf ∈ leaves (.properties entries) ↔ ∃ e ∈ entries, leaf ∈ e.2.leaves := by
  rw [leaves]
  induction entries with
  | nil => simp [entryLeaves]
  | cons e rest ih =>
      obtain ⟨key, value⟩ := e
      rw [entryLeaves, List.mem_append, ih]
      simp only [List.mem_cons, exists_eq_or_imp]

theorem leaves_of_kind {token : Token} (h : token.kind ≠ .properties) : token.leaves = [token] := by
  rw [leaves]
  rintro entries rfl
  exact h rfl

/-- The numbers of a token that are not in tokens inside of it. -/
def ownNumerals : Token → List Numeral
  | .numeric n => [n]
  | .numericList ns => ns
  | .ranges rs => rs.flatMap fun r => [r.low, r.high]
  | _ => []

/-- The numbers in a token, those in its properties included. -/
def numerals (token : Token) : List Numeral := token.leaves.flatMap ownNumerals

theorem mem_numerals_properties {entries : List (String × Token)} {n : Numeral} :
    n ∈ numerals (.properties entries) ↔ ∃ e ∈ entries, n ∈ e.2.numerals := by
  simp only [numerals, List.mem_flatMap, mem_leaves_properties]
  constructor
  · rintro ⟨leaf, ⟨e, he, hleaf⟩, hn⟩
    exact ⟨e, he, leaf, hleaf, hn⟩
  · rintro ⟨e, he, leaf, hleaf, hn⟩
    exact ⟨leaf, ⟨e, he, hleaf⟩, hn⟩

theorem numerals_of_kind {token : Token} (h : token.kind ≠ .properties) :
    token.numerals = token.ownNumerals := by
  rw [numerals, leaves_of_kind h, List.flatMap_singleton]

end RowRecipe.Token
