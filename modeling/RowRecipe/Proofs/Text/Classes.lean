import Mathlib
import RowRecipe.Text.Character

/-!
Characters of a class at the ends of a text. A run of them is taken whole when what follows starts
with another character; white space is only taken away where there is some.
-/

namespace RowRecipe.Text

variable {p : Char → Bool} {cs rest : List Char}

/-- The text does not start with a character of the class. -/
def StopsAt (p : Char → Bool) (rest : List Char) : Prop :=
  ∀ c ∈ rest.head?, p c = false

theorem stopsAt_nil (p : Char → Bool) : StopsAt p [] := by
  intro c hc
  cases hc

theorem stopsAt_cons {c : Char} (h : p c = false) (rest : List Char) : StopsAt p (c :: rest) := by
  intro c' hc
  obtain rfl := Option.some.inj hc
  exact h

theorem StopsAt.mono {q : Char → Bool} (h : StopsAt p rest) (hpq : ∀ c, q c = true → p c = true) :
    StopsAt q rest := by
  intro c hc
  by_contra hq
  have hp := hpq c (by simpa using hq)
  rw [h c hc] at hp
  cases hp

/-- A text that opens with characters of a class starts with one of them. -/
theorem exists_head_of_forall (hne : cs ≠ []) (hcs : ∀ c ∈ cs, p c = true) (rest : List Char) :
    ∃ c more, cs ++ rest = c :: more ∧ p c = true := by
  obtain ⟨c, more, rfl⟩ := List.exists_cons_of_ne_nil hne
  exact ⟨c, more ++ rest, rfl, hcs c List.mem_cons_self⟩

theorem takeWhile_of_stopsAt (h : StopsAt p rest) : rest.takeWhile p = [] := by
  cases rest with
  | nil => rfl
  | cons c rest => rw [List.takeWhile_cons_of_neg (by rw [h c rfl]; decide)]

theorem dropWhile_of_stopsAt (h : StopsAt p rest) : rest.dropWhile p = rest := by
  cases rest with
  | nil => rfl
  | cons c rest => rw [List.dropWhile_cons_of_neg (by rw [h c rfl]; decide)]

theorem takeWhile_append_of_stopsAt (hcs : ∀ c ∈ cs, p c = true) (h : StopsAt p rest) :
    (cs ++ rest).takeWhile p = cs := by
  rw [List.takeWhile_append_of_pos hcs, takeWhile_of_stopsAt h, List.append_nil]

/-- What stops a run of characters makes no run longer. -/
theorem takeWhile_append_left (h : StopsAt p rest) (cs : List Char) :
    (cs ++ rest).takeWhile p = cs.takeWhile p := by
  rw [List.takeWhile_append, takeWhile_of_stopsAt h]
  split
  · rename_i hall
    rw [List.append_nil, (List.takeWhile_sublist p).eq_of_length hall]
  · rfl

theorem dropWhile_append_of_stopsAt (hcs : ∀ c ∈ cs, p c = true) (h : StopsAt p rest) :
    (cs ++ rest).dropWhile p = rest := by
  rw [List.dropWhile_append_of_pos hcs, dropWhile_of_stopsAt h]

/-- A text with no white space at its ends has none to lose. -/
theorem trim_eq_self (hfirst : StopsAt isBlank cs) (hlast : StopsAt isBlank cs.reverse) :
    trim cs = cs := by
  rw [trim, trimStart, dropWhile_of_stopsAt hfirst, trimEnd, dropWhile_of_stopsAt hlast,
    List.reverse_reverse]

theorem stopsAt_of_forall (h : ∀ c ∈ cs, p c = false) : StopsAt p cs := by
  intro c hc
  exact h c (List.mem_of_head? hc)

theorem trim_of_forall (h : ∀ c ∈ cs, isBlank c = false) : trim cs = cs := by
  refine trim_eq_self (stopsAt_of_forall h) (stopsAt_of_forall ?_)
  intro c hc
  exact h c (List.mem_reverse.mp hc)

theorem trimmed_of_trim {s : String} (h : trim s.toList = s.toList) : trimmed s = s := by
  rw [trimmed, h, String.ofList_toList]

theorem isBlank_of_lt {c : Char} (h : 33 ≤ c.toNat) (h' : c.toNat < 128) : isBlank c = false := by
  simp only [isBlank, Bool.or_eq_false_iff, Bool.and_eq_false_imp, decide_eq_true_eq,
    decide_eq_false_iff_not, beq_eq_false_iff_ne]
  omega

theorem toNat_of_isDigit {c : Char} (h : c.isDigit = true) : 48 ≤ c.toNat ∧ c.toNat ≤ 57 := by
  simp only [Char.isDigit, Bool.and_eq_true, decide_eq_true_eq, UInt32.le_iff_toNat_le,
    ge_iff_le] at h
  exact h

theorem toNat_of_isAlpha {c : Char} (h : c.isAlpha = true) : 65 ≤ c.toNat ∧ c.toNat ≤ 122 := by
  simp only [Char.isAlpha, Char.isUpper, Char.isLower, Bool.or_eq_true, Bool.and_eq_true,
    decide_eq_true_eq, UInt32.le_iff_toNat_le, ge_iff_le] at h
  change (65 ≤ c.toNat ∧ c.toNat ≤ 90) ∨ (97 ≤ c.toNat ∧ c.toNat ≤ 122) at h
  omega

theorem isDigit_eq_false_of_isAlpha {c : Char} (h : c.isAlpha = true) : c.isDigit = false := by
  have hletter := toNat_of_isAlpha h
  by_contra hdigit
  have hdigit := toNat_of_isDigit (by simpa using hdigit)
  omega

theorem isBlank_of_isDigit {c : Char} (h : c.isDigit = true) : isBlank c = false := by
  have hdigit := toNat_of_isDigit h
  exact isBlank_of_lt (by omega) (by omega)

theorem isBlank_of_isAlpha {c : Char} (h : c.isAlpha = true) : isBlank c = false := by
  have hletter := toNat_of_isAlpha h
  exact isBlank_of_lt (by omega) (by omega)

theorem isDecimalDigit_of_isDigit {c : Char} (h : c.isDigit = true) : isDecimalDigit c = true := by
  have hdigit := toNat_of_isDigit h
  rw [isDecimalDigit, zeroDigits, List.any_cons]
  have hfirst : (0x30 ≤ c.toNat && c.toNat < 0x30 + 10) = true := by
    rw [Bool.and_eq_true, decide_eq_true_eq, decide_eq_true_eq]
    omega
  rw [hfirst, Bool.true_or]

/-- No script has decimal digits in the range of ASCII but ASCII itself. -/
theorem isDecimalDigit_eq_false {c : Char} (h : c.isDigit = false) (hascii : c.toNat < 128) :
    isDecimalDigit c = false := by
  by_contra hdigit
  rw [Bool.not_eq_false, isDecimalDigit, List.any_eq_true] at hdigit
  obtain ⟨first, hfirst, hrange⟩ := hdigit
  have hzero : ∀ first ∈ zeroDigits, first = 0x30 ∨ 128 ≤ first := by decide
  have hzero := hzero first hfirst
  rw [Bool.and_eq_true, decide_eq_true_eq, decide_eq_true_eq] at hrange
  have hc : c.isDigit = true := by
    simp only [Char.isDigit, Bool.and_eq_true, decide_eq_true_eq, UInt32.le_iff_toNat_le, ge_iff_le]
    change 48 ≤ c.toNat ∧ c.toNat ≤ 57
    omega
  rw [h] at hc
  cases hc

theorem isAlpha_eq_false_of_isDecimalDigit {c : Char} (h : isDecimalDigit c = true) :
    c.isAlpha = false := by
  by_contra hletter
  rw [Bool.not_eq_false] at hletter
  have hrange := toNat_of_isAlpha hletter
  rw [isDecimalDigit_eq_false (isDigit_eq_false_of_isAlpha hletter) (by omega)] at h
  cases h

theorem isAlpha_of_toLower {c : Char} (h : c.toLower.isAlpha = true) : c.isAlpha = true := by
  by_cases hupper : c.val ≥ 'A'.val ∧ c.val ≤ 'Z'.val
  · have hisUpper : c.isUpper = true := by
      rw [Char.isUpper, decide_eq_true_eq]
      exact hupper
    rw [Char.isAlpha, hisUpper, Bool.true_or]
  · rwa [Char.toLower, dif_neg hupper] at h

/-- A text that agrees with a word up to case has nothing but letters. -/
theorem isAlpha_of_sameIgnoringCase {expected found : List Char}
    (hletters : ∀ e ∈ expected, e.toLower.isAlpha = true)
    (h : sameIgnoringCase expected found = true) : ∀ c ∈ found, c.isAlpha = true := by
  intro c hc
  have hmem : c.toLower ∈ expected.map Char.toLower := by
    rw [beq_iff_eq.mp h]
    exact List.mem_map_of_mem hc
  obtain ⟨e, he, hlower⟩ := List.mem_map.mp hmem
  apply isAlpha_of_toLower
  rw [← hlower]
  exact hletters e he

theorem sameIgnoringCase_symm {a b : List Char} (h : sameIgnoringCase a b = true) :
    sameIgnoringCase b a = true :=
  beq_iff_eq.mpr (beq_iff_eq.mp h).symm

end RowRecipe.Text
