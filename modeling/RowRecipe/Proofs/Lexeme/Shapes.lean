import RowRecipe.Proofs.Lexeme.Scanning
import RowRecipe.Proofs.Text.Classes

/-!
What the texts of numbers and of unit literals look like. The patterns say how far a match reaches;
the shapes here say what has been matched.
-/

namespace RowRecipe.Lexeme

/-- Digits, and maybe a point and more digits. -/
inductive IsDecimal : List Char → Prop
  | whole {digits : List Char} (hne : digits ≠ []) (hdigits : ∀ c ∈ digits, c.isDigit = true) :
      IsDecimal digits
  | fraction {digits more : List Char} (hne : digits ≠ [])
      (hdigits : ∀ c ∈ digits, c.isDigit = true) (hne' : more ≠ [])
      (hmore : ∀ c ∈ more, c.isDigit = true) : IsDecimal (digits ++ '.' :: more)

/-- A decimal that may have a minus sign. -/
inductive IsNumber : List Char → Prop
  | plain {cs : List Char} (h : IsDecimal cs) : IsNumber cs
  | negative {cs : List Char} (h : IsDecimal cs) : IsNumber ('-' :: cs)

/-- Letters of ASCII, at least one. -/
structure IsSuffix (suffix : List Char) : Prop where
  nonempty : suffix ≠ []
  letters : ∀ c ∈ suffix, c.isAlpha = true

/-- A decimal and letters right after it. -/
def IsUnitLiteral (cs : List Char) : Prop :=
  ∃ number suffix, cs = number ++ suffix ∧ IsDecimal number ∧ IsSuffix suffix

/-- A letter or an underscore, and characters of names after it. -/
def IsName (cs : List Char) : Prop :=
  ∃ c rest, cs = c :: rest ∧ Pattern.startsName c = true ∧
    ∀ d ∈ rest, Pattern.continuesName d = true

theorem IsDecimal.head {cs : List Char} (h : IsDecimal cs) :
    ∃ c rest, cs = c :: rest ∧ c.isDigit = true := by
  cases h with
  | whole hne hdigits =>
      rw [← List.append_nil cs]
      exact Text.exists_head_of_forall hne hdigits []
  | fraction hne hdigits => exact Text.exists_head_of_forall hne hdigits _

theorem IsDecimal.mem {cs : List Char} (h : IsDecimal cs) {c : Char} (hc : c ∈ cs) :
    c.isDigit = true ∨ c = '.' := by
  cases h with
  | whole _ hdigits => exact .inl (hdigits c hc)
  | fraction _ hdigits _ hmore =>
      rcases List.mem_append.mp hc with hc | hc
      · exact .inl (hdigits c hc)
      · rcases List.mem_cons.mp hc with rfl | hc
        · exact .inr rfl
        · exact .inl (hmore c hc)

theorem IsDecimal.not_blank {cs : List Char} (h : IsDecimal cs) :
    ∀ c ∈ cs, Text.isBlank c = false := by
  intro c hc
  rcases h.mem hc with hdigit | rfl
  · exact Text.isBlank_of_isDigit hdigit
  · decide

theorem IsNumber.not_blank {cs : List Char} (h : IsNumber cs) :
    ∀ c ∈ cs, Text.isBlank c = false := by
  cases h with
  | plain h => exact h.not_blank
  | negative h => exact List.forall_mem_cons.mpr ⟨by decide, h.not_blank⟩

theorem IsUnitLiteral.not_blank {cs : List Char} (h : IsUnitLiteral cs) :
    ∀ c ∈ cs, Text.isBlank c = false := by
  obtain ⟨number, suffix, rfl, hnumber, hsuffix⟩ := h
  intro c hc
  rcases List.mem_append.mp hc with hc | hc
  · exact hnumber.not_blank c hc
  · exact Text.isBlank_of_isAlpha (hsuffix.letters c hc)

namespace Pattern

theorem take_length_takeWhile (p : Char → Bool) (cs : List Char) :
    cs.take (cs.takeWhile p).length = cs.takeWhile p :=
  (List.prefix_iff_eq_take.mp (List.takeWhile_prefix p)).symm

theorem isDecimal_of_unsignedNumber {cs : List Char} {n : Nat} (h : unsignedNumber cs = some n) :
    IsDecimal (cs.take n) := by
  have hdigits : ∀ cs : List Char, ∀ c ∈ cs.takeWhile Char.isDigit, c.isDigit = true :=
    fun _ _ hc => List.mem_takeWhile_imp hc
  have hnonempty : ∀ {cs : List Char}, (cs.takeWhile Char.isDigit).length ≠ 0 →
      cs.takeWhile Char.isDigit ≠ [] := by
    intro cs hlength hnil
    rw [hnil] at hlength
    exact hlength rfl
  simp only [unsignedNumber] at h
  split at h
  · cases h
  · rename_i hwhole
    have hplain : IsDecimal (cs.take (cs.takeWhile Char.isDigit).length) := by
      rw [take_length_takeWhile]
      exact .whole (hnonempty hwhole) (hdigits cs)
    split at h
    · rename_i rest hrest
      obtain rfl := Option.some.inj h
      by_cases hfraction : (rest.takeWhile Char.isDigit).length = 0
      · rw [if_pos hfraction]
        exact hplain
      · rw [if_neg hfraction]
        have htake : cs.take ((cs.takeWhile Char.isDigit).length + 1 +
            (rest.takeWhile Char.isDigit).length) =
              cs.takeWhile Char.isDigit ++ '.' :: rest.takeWhile Char.isDigit := by
          rw [Nat.add_assoc, List.take_add, take_length_takeWhile, hrest, Nat.add_comm 1,
            List.take_succ_cons, take_length_takeWhile]
        rw [htake]
        exact .fraction (hnonempty hwhole) (hdigits cs) (hnonempty hfraction) (hdigits rest)
    · obtain rfl := Option.some.inj h
      exact hplain

theorem isNumber_of_number {cs : List Char} {n : Nat} (h : number cs = some n) :
    IsNumber (cs.take n) := by
  unfold number at h
  split at h
  · obtain ⟨m, hm, rfl⟩ := Option.map_eq_some_iff.mp h
    exact .negative (isDecimal_of_unsignedNumber hm)
  · exact .plain (isDecimal_of_unsignedNumber h)

theorem isUnitLiteral_of_unitLiteral {cs : List Char} {n : Nat} (h : unitLiteral cs = some n) :
    IsUnitLiteral (cs.take n) := by
  simp only [unitLiteral] at h
  split at h
  · cases h
  · rename_i m hm
    split at h
    · cases h
    · rename_i hletters
      obtain rfl := Option.some.inj h
      refine ⟨cs.take m, (cs.drop m).takeWhile Char.isAlpha, ?_, isDecimal_of_unsignedNumber hm, ?_,
        fun c hc => List.mem_takeWhile_imp hc⟩
      · rw [List.take_add, take_length_takeWhile]
      · intro hnil
        rw [hnil] at hletters
        exact hletters rfl

end Pattern

/-- The text of the lexeme has the shape that its kind asks for, where it asks for one. -/
structure WellShaped (l : Lexeme) : Prop where
  number : l.kind = .number → IsNumber l.text
  unitLiteral : l.kind = .unitLiteral → IsUnitLiteral l.text

theorem wellShaped_of_longest {cs : List Char} {kind : Kind} {n : Nat}
    (h : Pattern.longest cs = some (kind, n)) (start : Nat) :
    WellShaped ⟨kind, cs.take n, start⟩ := by
  obtain ⟨p, hmem, hmatch⟩ := Pattern.longest_mem h
  constructor
  · rintro rfl
    have hp : p = Pattern.number := by
      simpa [Pattern.all] using hmem
    rw [hp] at hmatch
    exact Pattern.isNumber_of_number hmatch
  · rintro rfl
    have hp : p = Pattern.unitLiteral := by
      simpa [Pattern.all] using hmem
    rw [hp] at hmatch
    exact Pattern.isUnitLiteral_of_unitLiteral hmatch

theorem scan_wellShaped (cs : List Char) (base : Nat) (ls : List Lexeme)
    (h : scan cs base = .ok ls) : ∀ l ∈ ls, l.WellShaped :=
  forall_of_scan (fun _ _ _ start hlongest => wellShaped_of_longest hlongest start) h

end RowRecipe.Lexeme
