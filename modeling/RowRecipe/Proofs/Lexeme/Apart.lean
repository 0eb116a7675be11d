import RowRecipe.Proofs.Lexeme.Openings

/-!
Texts that stand apart from what follows them. A blank, a sign between words or the end of the text
continues no word and no number; in front of one, a text of a known shape is a lexeme as it stands.
-/

namespace RowRecipe.Text

theorem isBlank_of_isSkipped {c : Char} (h : Lexeme.isSkipped c = true) : isBlank c = true := by
  simp only [Lexeme.isSkipped, Bool.or_eq_true, beq_iff_eq] at h
  rcases h with ((rfl | rfl) | rfl) | h
  · decide
  · decide
  · decide
  · rw [isBlank, h]
    rfl

end RowRecipe.Text

namespace RowRecipe.Lexeme

namespace Pattern

theorem isBlank_of_continuesColumn {c : Char} (h : continuesColumn c = true) :
    Text.isBlank c = false := by
  have hsign : ∀ {e : Char}, (c == e) = true → Text.isBlank e = false → Text.isBlank c = false := by
    intro e hc he
    rwa [beq_iff_eq.mp hc]
  simp only [continuesColumn, continuesName, Char.isAlphanum, Bool.or_eq_true] at h
  rcases h with (((((hletter | hdigit) | h) | h) | h) | h) | h
  · exact Text.isBlank_of_isAlpha hletter
  · exact Text.isBlank_of_isDigit hdigit
  · exact hsign h (by decide)
  · exact hsign h (by decide)
  · exact hsign h (by decide)
  · exact hsign h (by decide)
  · exact hsign h (by decide)

theorem startsColumn_eq_false_of_isDigit {c : Char} (h : c.isDigit = true) :
    startsColumn c = false := by
  by_contra hstarts
  rw [Bool.not_eq_false, startsColumn, Bool.or_eq_true, Bool.or_eq_true] at hstarts
  rcases hstarts with (hname | hsign) | hsign
  · have hkind := opensOnly_isDigit h .identifier hname
    simp at hkind
  · rw [beq_iff_eq.mp hsign] at h
    cases h
  · rw [beq_iff_eq.mp hsign] at h
    cases h

section Apart

variable {rest : List Char}

/-- A word for a boolean is only found where all of its letters are in front of the rest. -/
theorem word_length_le {cs : List Char} {b : Bool} {n : Nat} (hrest : Apart rest)
    (h : word (boolName b).toList (cs ++ rest) = some n) : n ≤ cs.length := by
  obtain ⟨-, hsame⟩ := word_eq_some h
  have hletters := Text.isAlpha_of_sameIgnoringCase (isAlpha_boolName b) hsame
  by_contra hlt
  cases rest with
  | nil =>
      have hbound := (word_bounded (by cases b <;> decide) _ _ h).2
      rw [List.append_nil] at hbound
      exact hlt hbound
  | cons c rest =>
      obtain ⟨k, hk⟩ : ∃ k, n - cs.length = k + 1 := ⟨n - cs.length - 1, by omega⟩
      have hmem : c ∈ (cs ++ c :: rest).take n := by
        rw [List.take_append, hk]
        exact List.mem_append_right _ List.mem_cons_self
      have hstop : continuesColumn c = false := hrest c rfl
      have hletter := hletters c hmem
      rw [continuesColumn, continuesName, Char.isAlphanum, hletter] at hstop
      cases hstop

theorem eq_word_of_bool {p : Pattern} (h : (Kind.bool, p) ∈ all) :
    ∃ b, p = word (boolName b).toList := by
  have hp : p = word ['t', 'r', 'u', 'e'] ∨ p = word ['f', 'a', 'l', 's', 'e'] := by
    simpa [all] using h
  rcases hp with rfl | rfl
  · exact ⟨true, rfl⟩
  · exact ⟨false, rfl⟩

/-- A word for a boolean wins over a name of the same length, which comes later. -/
theorem longest_word {c : Char} {tail : List Char} {b : Bool} {n : Nat}
    (hmatch : word (boolName b).toList (c :: tail) = some n)
    (hall : ∀ q ∈ all, ∀ m, q.2 (c :: tail) = some m → m ≤ n) :
    longest (c :: tail) = some (.bool, n) := by
  have hstarts : startsName c = true := by
    rw [startsName, head_of_word hmatch, Bool.true_or]
  have hkinds : ∀ q ∈ all, ∀ m, q.2 (c :: tail) = some m → q.1 ∈ [Kind.bool, .identifier] :=
    fun q hq m hm => opensOnly_startsName hstarts _ (opens_of_match q hq hm)
  have hsigns : ∀ q ∈ all.take 7, q.1 ∉ [Kind.bool, .identifier] := by
    simp [all]
  cases b with
  | true =>
      refine longest_eq (all.take 7) (all.drop 8) rfl hmatch ?_ ?_
      · intro q hq m hm
        exact absurd (hkinds q (List.mem_of_mem_take hq) m hm) (hsigns q hq)
      · intro q hq
        exact hall q (List.mem_of_mem_drop hq)
  | false =>
      refine longest_eq (all.take 8) (all.drop 9) rfl hmatch ?_ ?_
      · intro q hq m hm
        have hq : q ∈ all.take 7 ∨ q = (.bool, word ['t', 'r', 'u', 'e']) := by
          simpa [all, or_assoc] using hq
        rcases hq with hq | rfl
        · exact absurd (hkinds q (List.mem_of_mem_take hq) m hm) (hsigns q hq)
        · have hfive := (word_eq_some hmatch).1
          rw [(word_eq_some hm).1, hfive]
          decide
      · intro q hq
        exact hall q (List.mem_of_mem_drop hq)

theorem identifier_append {c : Char} {more : List Char} (hc : startsName c = true)
    (hmore : ∀ d ∈ more, continuesName d = true) (hrest : Apart rest) :
    identifier (c :: more ++ rest) = some (c :: more).length := by
  have hstop : Text.StopsAt continuesName rest :=
    hrest.mono fun d hd => by rw [continuesColumn, hd]; rfl
  rw [List.cons_append, identifier, name, if_pos hc,
    Text.takeWhile_append_of_stopsAt hmore hstop, List.length_cons, Nat.add_comm]

/-- A colon is one by itself where no name follows it. -/
theorem longest_colon (hrest : Text.StopsAt startsColumn rest) :
    longest (':' :: rest) = some (.colon, 1) := by
  have hmatch : literal [':'] (':' :: rest) = some 1 := by
    simp [literal]
  refine longest_of_rivals opensOnly_colon (by simp [all]) (fun q hq => by simpa [all] using hq)
    hmatch ?_
  intro k hk p hp m hm
  obtain rfl := List.mem_singleton.mp hk
  obtain rfl : p = column := by simpa [all] using hp
  -- the pattern of columns needs a character that can start a name
  cases rest with
  | nil => cases hm
  | cons c rest =>
      have hc : startsColumn c = false := hrest c rfl
      simp [column, Pattern.name, hc] at hm

/-- The signs that never are a part of a longer lexeme. -/
theorem longest_sign {kind : Kind} {c : Char}
    (h : (kind, c) ∈ [(Kind.newline, '\n'), (.comma, ','), (.equals, '='), (.bang, '!')])
    (rest : List Char) : longest (c :: rest) = some (kind, 1) := by
  have honly : OpensOnly c [kind] := by
    intro k hk
    revert hk
    simp only [List.mem_cons, Prod.mk.injEq, List.not_mem_nil, or_false] at h
    rcases h with ⟨rfl, rfl⟩ | ⟨rfl, rfl⟩ | ⟨rfl, rfl⟩ | ⟨rfl, rfl⟩ <;> cases k <;> decide
  have hmem : (kind, literal [c]) ∈ all := by
    simp only [List.mem_cons, Prod.mk.injEq, List.not_mem_nil, or_false] at h
    rcases h with ⟨rfl, rfl⟩ | ⟨rfl, rfl⟩ | ⟨rfl, rfl⟩ | ⟨rfl, rfl⟩ <;> simp [all]
  have hunique : ∀ q, (kind, q) ∈ all → q = literal [c] := by
    intro q hq
    simp only [List.mem_cons, Prod.mk.injEq, List.not_mem_nil, or_false] at h
    rcases h with ⟨rfl, rfl⟩ | ⟨rfl, rfl⟩ | ⟨rfl, rfl⟩ | ⟨rfl, rfl⟩ <;> simpa [all] using hq
  exact longest_of_rivals honly hmem hunique (by simp [literal]) (by simp)

theorem longest_pragma (rest : List Char) :
    longest ("#pragma".toList ++ rest) = some (.pragma, 7) := by
  have honly : OpensOnly '#' [.pragma] := by
    intro k hk
    revert hk
    cases k <;> decide
  have hmatch : literal "#pragma".toList ("#pragma".toList ++ rest) = some 7 := rfl
  exact longest_of_rivals honly (by simp [all]) (fun q hq => by simpa [all] using hq) hmatch
    (by simp)

/-- What stops the digits of a number. -/
def isDecimalPart (c : Char) : Bool := c.isDigit || c == '.'

theorem unsignedNumber_append {cs : List Char} (h : IsDecimal cs)
    (hrest : Text.StopsAt isDecimalPart rest) : unsignedNumber (cs ++ rest) = some cs.length := by
  have hdigits : Text.StopsAt Char.isDigit rest :=
    hrest.mono fun c hc => by rw [isDecimalPart, hc, Bool.true_or]
  have hpoint : ∀ tail, rest ≠ '.' :: tail := by
    rintro tail rfl
    exact absurd (hrest '.' rfl) (by decide)
  cases h with
  | whole hne hdigit =>
      have hlength : cs.length ≠ 0 := by simpa using hne
      simp only [unsignedNumber, Text.takeWhile_append_of_stopsAt hdigit hdigits, if_neg hlength,
        List.drop_left]
  | @fraction digits more hne hdigit hne' hmore =>
      have hlength : digits.length ≠ 0 := by simpa using hne
      have hlength' : more.length ≠ 0 := by simpa using hne'
      have hstop : Text.StopsAt Char.isDigit ('.' :: (more ++ rest)) :=
        Text.stopsAt_cons (by decide) _
      simp only [List.append_assoc, List.cons_append, unsignedNumber,
        Text.takeWhile_append_of_stopsAt hdigit hstop, if_neg hlength, List.drop_left,
        Text.takeWhile_append_of_stopsAt hmore hdigits, if_neg hlength', List.length_append,
        List.length_cons]
      rw [Nat.add_assoc, Nat.add_comm 1]

theorem isDecimalPart_of_isAlpha {c : Char} (h : c.isAlpha = true) : isDecimalPart c = false := by
  rw [isDecimalPart, Text.isDigit_eq_false_of_isAlpha h, Bool.false_or, beq_eq_false_iff_ne]
  rintro rfl
  exact absurd h (by decide)

theorem isDecimalPart_of_apart (h : Apart rest) : Text.StopsAt isDecimalPart rest := by
  refine h.mono fun c hc => ?_
  rcases Bool.or_eq_true _ _ ▸ hc with hdigit | hpoint
  · exact continuesColumn_of_continuesName (continuesName_of_isDigit hdigit)
  · rw [beq_iff_eq.mp hpoint]
    decide

theorem isAlpha_of_apart (h : Apart rest) : Text.StopsAt Char.isAlpha rest :=
  h.mono fun c hc => by rw [continuesColumn, continuesName_of_isAlpha hc]; rfl

theorem longest_number {cs : List Char} (h : IsNumber cs) (hrest : Apart rest) :
    longest (cs ++ rest) = some (.number, cs.length) := by
  have hunique : ∀ q, (Kind.number, q) ∈ all → q = number := fun q hq => by simpa [all] using hq
  cases h with
  | plain h =>
      obtain ⟨c, more, rfl, hc⟩ := h.head
      have hunsigned := unsignedNumber_append h (isDecimalPart_of_apart hrest)
      have hmatch : number (c :: more ++ rest) = some (c :: more).length :=
        (number_of_isDigit hc _).trans hunsigned
      refine longest_of_rivals (opensOnly_isDigit hc) (by simp [all]) hunique hmatch ?_
      intro k hk p hp m hm
      obtain rfl := List.mem_singleton.mp hk
      obtain rfl : p = unitLiteral := by simpa [all] using hp
      -- no letters follow, so there is no unit
      change unitLiteral (c :: more ++ rest) = some m at hm
      simp only [unitLiteral, hunsigned, List.drop_left,
        Text.takeWhile_of_stopsAt (isAlpha_of_apart hrest)] at hm
      cases hm
  | @negative cs h =>
      have hmatch : number ('-' :: cs ++ rest) = some ('-' :: cs).length := by
        simp only [List.cons_append, number, unsignedNumber_append h (isDecimalPart_of_apart hrest),
          Option.map_some, List.length_cons]
      exact longest_of_rivals opensOnly_minus (by simp [all]) hunique hmatch (by simp)

theorem longest_unitLiteral {number suffix : List Char} (hnumber : IsDecimal number)
    (hsuffix : IsSuffix suffix) (hrest : Apart rest) :
    longest (number ++ suffix ++ rest) = some (.unitLiteral, (number ++ suffix).length) := by
  obtain ⟨d, letters, hletters⟩ := List.exists_cons_of_ne_nil hsuffix.nonempty
  have hstop : Text.StopsAt isDecimalPart (suffix ++ rest) := by
    rw [hletters]
    have hd := hsuffix.letters d (by rw [hletters]; exact List.mem_cons_self)
    exact Text.stopsAt_cons (isDecimalPart_of_isAlpha hd) _
  have hunsigned := unsignedNumber_append hnumber hstop
  have hlength : suffix.length ≠ 0 := by simpa using hsuffix.nonempty
  obtain ⟨c, more, rfl, hc⟩ := hnumber.head
  have hmatch : unitLiteral (c :: more ++ (suffix ++ rest)) =
      some (c :: more ++ suffix).length := by
    simp only [unitLiteral, hunsigned, List.drop_left,
      Text.takeWhile_append_of_stopsAt hsuffix.letters (isAlpha_of_apart hrest), if_neg hlength,
      List.length_append]
  rw [List.append_assoc]
  refine longest_of_rivals (opensOnly_isDigit hc).swap (by simp [all])
    (fun q hq => by simpa [all] using hq) hmatch ?_
  intro k hk p hp m hm
  obtain rfl := List.mem_singleton.mp hk
  obtain rfl : p = Pattern.number := by simpa [all] using hp
  -- the number is a match too, but it lacks the letters
  have hshorter : Pattern.number (c :: more ++ (suffix ++ rest)) = some (c :: more).length :=
    (number_of_isDigit hc _).trans hunsigned
  obtain rfl := Option.some.inj (hshorter.symm.trans hm)
  rw [List.length_append]
  omega

end Apart

end Pattern

end RowRecipe.Lexeme
