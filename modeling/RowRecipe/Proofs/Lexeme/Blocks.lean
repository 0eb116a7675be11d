import RowRecipe.Proofs.Lexeme.Patterns

/-!
Blocks as texts with their braces in pairs. A scan that counts open braces stops behind a text
exactly when the text is such a block.
-/

namespace RowRecipe.Lexeme.Block

variable {cs inner : List Char} {quote : Char} {d n : Nat}

/-- What may stand between the quotes of a section. A backslash comes with any character behind it,
and the quote itself only stands behind a backslash. -/
inductive Section (quote : Char) : List Char → Prop
  | nil : Section quote []
  | plain {c : Char} {rest : List Char} (hquote : c ≠ quote) (hbackslash : c ≠ '\\')
      (hrest : Section quote rest) : Section quote (c :: rest)
  | pair (c : Char) {rest : List Char} (hrest : Section quote rest) :
      Section quote ('\\' :: c :: rest)

/-- What may stand between the braces of a block. Braces come in pairs, except in quoted sections. -/
inductive Balanced : List Char → Prop
  | nil : Balanced []
  | plain {c : Char} {rest : List Char} (hquote : isQuote c = false) (hopen : c ≠ '{')
      (hclose : c ≠ '}') (hrest : Balanced rest) : Balanced (c :: rest)
  | quoted {quote : Char} {inner rest : List Char} (hquote : isQuote quote = true)
      (hinner : Section quote inner) (hrest : Balanced rest) :
      Balanced (quote :: (inner ++ quote :: rest))
  | braces {inner rest : List Char} (hinner : Balanced inner) (hrest : Balanced rest) :
      Balanced ('{' :: (inner ++ '}' :: rest))

theorem quote_ne_backslash (h : isQuote quote = true) : quote ≠ '\\' := by
  rintro rfl
  cases h

section Steps

variable (d : Nat) (rest : List Char)

theorem scan_plain_char {c : Char} (hquote : isQuote c = false) (hopen : c ≠ '{') (hclose : c ≠ '}') :
    scan ⟨d + 1, none⟩ (c :: rest) = (scan ⟨d + 1, none⟩ rest).map (· + 1) := by
  have hstep : State.step ⟨d + 1, none⟩ c = ⟨d + 1, none⟩ := by
    simp only [State.step, hquote, if_neg hopen, if_neg hclose, Bool.false_eq_true, if_false]
  rw [scan_cons (by rw [hstep]; exact Nat.succ_ne_zero d), hstep]

theorem scan_quote (hquote : isQuote quote = true) :
    scan ⟨d + 1, none⟩ (quote :: rest) =
      (scan ⟨d + 1, some (quote, false)⟩ rest).map (· + 1) := by
  have hstep : State.step ⟨d + 1, none⟩ quote = ⟨d + 1, some (quote, false)⟩ := by
    simp only [State.step, hquote, if_true]
  rw [scan_cons (by rw [hstep]; exact Nat.succ_ne_zero d), hstep]

theorem scan_open :
    scan ⟨d + 1, none⟩ ('{' :: rest) = (scan ⟨d + 2, none⟩ rest).map (· + 1) := by
  have hstep : State.step ⟨d + 1, none⟩ '{' = ⟨d + 2, none⟩ := rfl
  rw [scan_cons (by rw [hstep]; exact Nat.succ_ne_zero _), hstep]

/-- How many characters it takes behind a closing brace, while so many braces are still open. -/
def scanBehind : Nat → List Char → Option Nat
  | 0, _ => some 0
  | d + 1, rest => scan ⟨d + 1, none⟩ rest

theorem scan_close : scan ⟨d + 1, none⟩ ('}' :: rest) = (scanBehind d rest).map (· + 1) := by
  cases d with
  | zero => rfl
  | succ d =>
      have hstep : State.step ⟨d + 2, none⟩ '}' = ⟨d + 1, none⟩ := rfl
      rw [scan_cons (by rw [hstep]; exact Nat.succ_ne_zero d), hstep, scanBehind]

theorem scan_backslash (c : Char) :
    scan ⟨d + 1, some (quote, false)⟩ ('\\' :: c :: rest) =
      (scan ⟨d + 1, some (quote, false)⟩ rest).map (· + 2) := by
  have hprotect : State.step ⟨d + 1, some (quote, false)⟩ '\\' = ⟨d + 1, some (quote, true)⟩ := rfl
  have hprotected : State.step ⟨d + 1, some (quote, true)⟩ c = ⟨d + 1, some (quote, false)⟩ := rfl
  rw [scan_cons (by rw [hprotect]; exact Nat.succ_ne_zero d), hprotect,
    scan_cons (by rw [hprotected]; exact Nat.succ_ne_zero d), hprotected, Option.map_map]
  rfl

theorem scan_quoted_char {c : Char} (hquote : c ≠ quote) (hbackslash : c ≠ '\\') :
    scan ⟨d + 1, some (quote, false)⟩ (c :: rest) =
      (scan ⟨d + 1, some (quote, false)⟩ rest).map (· + 1) := by
  have hstep : State.step ⟨d + 1, some (quote, false)⟩ c = ⟨d + 1, some (quote, false)⟩ := by
    simp only [State.step, if_neg hbackslash, if_neg hquote]
  rw [scan_cons (by rw [hstep]; exact Nat.succ_ne_zero d), hstep]

theorem scan_unquote (hquote : quote ≠ '\\') :
    scan ⟨d + 1, some (quote, false)⟩ (quote :: rest) = (scan ⟨d + 1, none⟩ rest).map (· + 1) := by
  have hstep : State.step ⟨d + 1, some (quote, false)⟩ quote = ⟨d + 1, none⟩ := by
    simp only [State.step, if_neg hquote, if_true]
  rw [scan_cons (by rw [hstep]; exact Nat.succ_ne_zero d), hstep]

end Steps

theorem scan_section (h : Section quote inner) (hquote : quote ≠ '\\') (d : Nat)
    (more : List Char) :
    scan ⟨d + 1, some (quote, false)⟩ (inner ++ quote :: more) =
      (scan ⟨d + 1, none⟩ more).map (· + (inner.length + 1)) := by
  induction h with
  | nil => exact scan_unquote d more hquote
  | plain hne hbackslash _ ih =>
      rw [List.cons_append, scan_quoted_char d _ hne hbackslash, ih, Option.map_map]
      rfl
  | pair c _ ih =>
      rw [List.cons_append, List.cons_append, scan_backslash, ih, Option.map_map]
      rfl

/-- A balanced text leaves as many braces open as there were in front of it. -/
theorem scan_balanced (h : Balanced inner) (d : Nat) (more : List Char) :
    scan ⟨d + 1, none⟩ (inner ++ more) = (scan ⟨d + 1, none⟩ more).map (· + inner.length) := by
  induction h generalizing d more with
  | nil =>
      rw [List.nil_append]
      cases scan ⟨d + 1, none⟩ more <;> rfl
  | plain hquote hopen hclose _ ih =>
      rw [List.cons_append, scan_plain_char d _ hquote hopen hclose, ih, Option.map_map]
      rfl
  | quoted hquote hinner _ ih =>
      rw [List.cons_append, List.append_assoc, List.cons_append, scan_quote d _ hquote,
        scan_section hinner (quote_ne_backslash hquote), ih, Option.map_map, Option.map_map]
      simp only [List.length_cons, List.length_append]
      congr 1
      funext n
      simp only [Function.comp_apply]
      omega
  | braces _ _ ihinner ihrest =>
      rw [List.cons_append, List.append_assoc, List.cons_append, scan_open, ihinner, scan_close,
        scanBehind, ihrest, Option.map_map, Option.map_map, Option.map_map]
      simp only [List.length_cons, List.length_append]
      congr 1
      funext n
      simp only [Function.comp_apply]
      omega

theorem length?_of_balanced (h : Balanced inner) (rest : List Char) :
    length? ('{' :: (inner ++ '}' :: rest)) = some (inner.length + 2) := by
  rw [length?, scan_balanced h 0, scan_close, scanBehind, Option.map_some, Option.map_some,
    Option.map_some]
  congr 1
  omega

/-- A scan that ends leaves the section it is in. -/
theorem exists_section (hquote : quote ≠ '\\')
    (h : scan ⟨d + 1, some (quote, false)⟩ cs = some n) :
    ∃ inner rest m, Section quote inner ∧ cs = inner ++ quote :: rest ∧
      scan ⟨d + 1, none⟩ rest = some m ∧ n = inner.length + 1 + m := by
  -- a backslash takes two characters, so the induction is on the length
  induction hlength : cs.length using Nat.strongRecOn generalizing cs n with
  | ind length ih =>
      subst hlength
      cases cs with
      | nil => cases h
      | cons c rest =>
          by_cases hc : c = quote
          · subst hc
            rw [scan_unquote d rest hquote] at h
            obtain ⟨m, hm, rfl⟩ := Option.map_eq_some_iff.mp h
            exact ⟨[], rest, m, .nil, rfl, hm, by simp only [List.length_nil]; omega⟩
          · by_cases hbackslash : c = '\\'
            · subst hbackslash
              cases rest with
              | nil => cases h
              | cons c rest =>
                  rw [scan_backslash] at h
                  obtain ⟨k, hk, rfl⟩ := Option.map_eq_some_iff.mp h
                  obtain ⟨inner, last, m, hinner, rfl, hm, rfl⟩ := ih _ (by simp) hk rfl
                  exact ⟨'\\' :: c :: inner, last, m, .pair c hinner, rfl, hm,
                    by simp only [List.length_cons]; omega⟩
            · rw [scan_quoted_char d rest hc hbackslash] at h
              obtain ⟨k, hk, rfl⟩ := Option.map_eq_some_iff.mp h
              obtain ⟨inner, last, m, hinner, rfl, hm, rfl⟩ := ih _ (by simp) hk rfl
              exact ⟨c :: inner, last, m, .plain hc hbackslash hinner, rfl, hm,
                by simp only [List.length_cons]; omega⟩

/-- A scan that ends closes the innermost of the open braces behind a balanced text. -/
theorem exists_balanced (h : scan ⟨d + 1, none⟩ cs = some n) :
    ∃ inner rest m, Balanced inner ∧ cs = inner ++ '}' :: rest ∧
      scanBehind d rest = some m ∧ n = inner.length + 1 + m := by
  -- behind a pair of braces and behind a section, the scan goes on in a shorter text
  induction hlength : cs.length using Nat.strongRecOn generalizing cs d n with
  | ind length ih =>
      subst hlength
      cases cs with
      | nil => cases h
      | cons c rest =>
          by_cases hclose : c = '}'
          · subst hclose
            rw [scan_close] at h
            obtain ⟨m, hm, rfl⟩ := Option.map_eq_some_iff.mp h
            exact ⟨[], rest, m, .nil, rfl, hm, by simp only [List.length_nil]; omega⟩
          · by_cases hopen : c = '{'
            · subst hopen
              rw [scan_open] at h
              obtain ⟨k, hk, rfl⟩ := Option.map_eq_some_iff.mp h
              obtain ⟨first, behind, _, hfirst, rfl, hbehind, rfl⟩ := ih _ (by simp) hk rfl
              obtain ⟨more, last, m, hmore, rfl, hm, rfl⟩ := ih _ (by simp; omega) hbehind rfl
              refine ⟨'{' :: (first ++ '}' :: more), last, m, .braces hfirst hmore, ?_, hm, ?_⟩
              · simp only [List.cons_append, List.append_assoc]
              · simp only [List.length_cons, List.length_append]
                omega
            · cases hquote : isQuote c with
              | true =>
                  rw [scan_quote d rest hquote] at h
                  obtain ⟨k, hk, rfl⟩ := Option.map_eq_some_iff.mp h
                  obtain ⟨first, behind, _, hfirst, rfl, hbehind, rfl⟩ :=
                    exists_section (quote_ne_backslash hquote) hk
                  obtain ⟨more, last, m, hmore, rfl, hm, rfl⟩ := ih _ (by simp; omega) hbehind rfl
                  refine ⟨c :: (first ++ c :: more), last, m, .quoted hquote hfirst hmore, ?_, hm, ?_⟩
                  · simp only [List.cons_append, List.append_assoc]
                  · simp only [List.length_cons, List.length_append]
                    omega
              | false =>
                  rw [scan_plain_char d rest hquote hopen hclose] at h
                  obtain ⟨k, hk, rfl⟩ := Option.map_eq_some_iff.mp h
                  obtain ⟨inner, last, m, hinner, rfl, hm, rfl⟩ := ih _ (by simp) hk rfl
                  exact ⟨c :: inner, last, m, .plain hquote hopen hclose hinner, rfl, hm,
                    by simp only [List.length_cons]; omega⟩

/-- A block stands at the start of a text exactly when its braces are closed there. -/
theorem length?_eq_some_iff : length? cs = some n ↔ ∃ inner rest, Balanced inner ∧
    cs = '{' :: (inner ++ '}' :: rest) ∧ n = inner.length + 2 := by
  constructor
  · intro h
    obtain ⟨rest, m, rfl, hscan, rfl⟩ := eq_cons_of_length? h
    obtain ⟨inner, last, k, hinner, rfl, hk, rfl⟩ := exists_balanced hscan
    obtain rfl := Option.some.inj hk
    exact ⟨inner, last, hinner, rfl, rfl⟩
  · rintro ⟨inner, rest, hinner, rfl, rfl⟩
    exact length?_of_balanced hinner rest

end RowRecipe.Lexeme.Block
