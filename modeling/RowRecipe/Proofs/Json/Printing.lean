import RowRecipe.Json.Printer
import RowRecipe.Proofs.Json.Numbers
import RowRecipe.Proofs.Text.Digits

/-!
The compact text of a JSON value has no control characters, whatever the strings and names in the
value contain. So it has no line break either.
-/

namespace RowRecipe

namespace Text

/-- None of the characters is a control character in front of the blank. -/
def NoControls (cs : List Char) : Prop := ∀ c ∈ cs, 32 ≤ c.toNat

@[simp] theorem noControls_nil : NoControls [] := List.forall_mem_nil _

@[simp] theorem noControls_cons {c : Char} {cs : List Char} :
    NoControls (c :: cs) ↔ 32 ≤ c.toNat ∧ NoControls cs := List.forall_mem_cons

@[simp] theorem noControls_append {a b : List Char} :
    NoControls (a ++ b) ↔ NoControls a ∧ NoControls b := List.forall_mem_append

theorem NoControls.newline_notMem {cs : List Char} (h : NoControls cs) : '\n' ∉ cs :=
  fun hmem => absurd (h '\n' hmem) (by decide)

theorem noControls_digits {cs : List Char} (h : ∀ c ∈ cs, c.isDigit = true) : NoControls cs := by
  intro c hc
  have hdigit := h c hc
  rw [Char.isDigit, Bool.and_eq_true, decide_eq_true_eq, decide_eq_true_eq] at hdigit
  have hlow : '0'.toNat ≤ c.toNat := hdigit.1
  exact le_trans (by decide) hlow

theorem noControls_toDigits (n : Nat) : NoControls (Nat.toDigits 10 n) :=
  noControls_digits (isDigit_toDigits n)

end Text

open Text

namespace Binary64

theorem noControls_signText (negative : Bool) : NoControls (signText negative) := by
  cases negative <;> simp [signText]

theorem noControls_positionalText (keepsPoint : Bool) {digits : List Char}
    (h : NoControls digits) (point : Int) :
    NoControls (positionalText keepsPoint digits point) := by
  intro c hc
  rcases mem_positionalText hc with hc | rfl | rfl
  · exact h c hc
  · decide
  · decide

theorem noControls_exponentText (e : Int) : NoControls (exponentText e) := by
  have hsign : 32 ≤ (if e < 0 then '-' else '+').toNat := by split <;> decide
  simp only [exponentText, noControls_cons]
  exact ⟨by decide, hsign, noControls_toDigits _⟩

theorem noControls_scientificText {digits : List Char} (h : NoControls digits) (point : Int) :
    NoControls (scientificText digits point) := by
  have hexponent := noControls_exponentText (point - 1)
  cases digits with
  | nil => exact hexponent
  | cons c rest =>
      obtain ⟨hc, hrest⟩ := noControls_cons.mp h
      cases rest with
      | nil => exact noControls_cons.mpr ⟨hc, hexponent⟩
      | cons d more =>
          have htext : scientificText (c :: d :: more) point =
              c :: '.' :: (d :: more ++ exponentText (point - 1)) := by
            rw [scientificText, List.append_assoc, List.append_assoc]
            rfl
          rw [htext]
          exact noControls_cons.mpr ⟨hc, noControls_cons.mpr
            ⟨by decide, noControls_append.mpr ⟨hrest, hexponent⟩⟩⟩

theorem noControls_digitsAndPoint (d : Decimal) : NoControls (digitsAndPoint d).1 :=
  fun c hc => noControls_toDigits d.digits c (mem_toDigits_of_mem_digitsAndPoint hc)

theorem noControls_write (style : Style) (x : Binary64) : NoControls (write style x) := by
  cases x with
  | nan => simp [write]
  | infinite negative => simp [write, noControls_signText]
  | finite negative units h =>
      refine noControls_append.mpr ⟨noControls_signText negative, ?_⟩
      have hdigits := noControls_digitsAndPoint (shortest style.tie units)
      unfold magnitudeText
      split
      · exact noControls_positionalText _ (by simp) 1
      · dsimp only
        split
        · exact noControls_positionalText _ hdigits _
        · split
          · exact noControls_positionalText _ hdigits _
          · exact noControls_scientificText hdigits _

end Binary64

namespace Json

theorem Number.noControls_text (n : Number) : NoControls n.text := by
  cases n with
  | integer i =>
      rw [Number.text_integer]
      exact noControls_append.mpr ⟨Binary64.noControls_signText _, noControls_toDigits _⟩
  | real x => exact Binary64.noControls_write Binary64.data x

theorem blank_le_digitChar : ∀ n < 16, 32 ≤ (Nat.digitChar n).toNat := by decide

/-- A control character is escaped, so none is left of it. -/
theorem noControls_escaped (c : Char) : NoControls (escaped c) := by
  unfold escaped
  split_ifs with _ _ _ _ _ _ _ hcontrol
  all_goals simp only [noControls_cons, noControls_nil, and_true]
  any_goals decide
  · have hhigh := blank_le_digitChar (c.toNat / 16) (by omega)
    have hlow := blank_le_digitChar (c.toNat % 16) (by omega)
    exact ⟨by decide, by decide, by decide, by decide, hhigh, hlow⟩
  · omega

theorem noControls_quoted (s : String) : NoControls (quoted s) := by
  have hinside : NoControls (s.toList.flatMap escaped) := by
    intro c hc
    obtain ⟨d, -, hd⟩ := List.mem_flatMap.mp hc
    exact noControls_escaped d c hd
  simp [quoted, hinside]

mutual

theorem noControls_chars : ∀ json : Json, NoControls (chars json)
  | .null => by simp [chars]
  | .bool b => by cases b <;> simp [chars, boolText]
  | .number n => n.noControls_text
  | .string s => noControls_quoted s
  | .array elements => by simp [chars, noControls_elementChars elements]
  | .object members => by simp [chars, noControls_memberChars members]

theorem noControls_elementChars : ∀ elements : List Json, NoControls (elementChars elements)
  | [] => noControls_nil
  | [value] => noControls_chars value
  | value :: next :: rest => by
      simp [elementChars, noControls_chars value, noControls_elementChars (next :: rest)]

theorem noControls_memberChars : ∀ members : List (String × Json), NoControls (memberChars members)
  | [] => noControls_nil
  | [(name, value)] => by simp [memberChars, noControls_quoted, noControls_chars value]
  | (name, value) :: next :: rest => by
      simp [memberChars, noControls_quoted, noControls_chars value,
        noControls_memberChars (next :: rest)]

end

theorem noControls_compact (json : Json) : NoControls json.compact.toList := by
  rw [compact, String.toList_ofList]
  exact noControls_chars json

end Json

end RowRecipe
