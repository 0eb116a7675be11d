import RowRecipe.Lexeme.Pattern
import RowRecipe.Proofs.Text.Classes

/-!
How far patterns look. A match takes at least one character and only characters of the text.
Patterns of quoted texts and of blocks may run over anything, but once they have matched, what
follows does not matter to them; all other patterns stop in front of a newline, a blank, a brace or
anything else that stands apart, whether they match or not. So a lexeme that was found in a text is
found there again when something follows that stands apart, and also the other way round.
-/

namespace RowRecipe.Lexeme

namespace Block

theorem isQuote_iff {c : Char} : isQuote c = true ↔ c = '\x27' ∨ c = '"' := by
  rw [isQuote, Bool.or_eq_true, beq_iff_eq, beq_iff_eq]

theorem scan_cons {s : State} {c : Char} (hopen : (s.step c).depth ≠ 0) (rest : List Char) :
    scan s (c :: rest) = (scan (s.step c) rest).map (· + 1) := by
  simp only [scan, if_neg hopen]

theorem scan_cons_of_closed {s : State} {c : Char} (hclosed : (s.step c).depth = 0)
    (rest : List Char) : scan s (c :: rest) = some 1 := by
  simp only [scan, if_pos hclosed]

/-- A scan ends behind the character that closes the block, or it goes on behind that character. -/
theorem scan_cons_eq_some {s : State} {c : Char} {rest : List Char} {n : Nat} :
    scan s (c :: rest) = some n ↔ ((s.step c).depth = 0 ∧ n = 1) ∨
      ((s.step c).depth ≠ 0 ∧ ∃ m, scan (s.step c) rest = some m ∧ n = m + 1) := by
  by_cases hclosed : (s.step c).depth = 0
  · simp [scan_cons_of_closed hclosed, hclosed, eq_comm]
  · simp [scan_cons hclosed, hclosed, eq_comm]

theorem scan_cons_eq_none {s : State} {c : Char} {rest : List Char} :
    scan s (c :: rest) = none ↔ (s.step c).depth ≠ 0 ∧ scan (s.step c) rest = none := by
  by_cases hclosed : (s.step c).depth = 0
  · simp [scan_cons_of_closed hclosed, hclosed]
  · simp [scan_cons hclosed, hclosed]

/-- A block that was closed stays as it is when more text follows. -/
theorem scan_append (s : State) (cs more : List Char) (n : Nat) (h : scan s cs = some n) :
    scan s (cs ++ more) = some n := by
  induction cs generalizing s n with
  | nil => cases h
  | cons c rest ih =>
      rw [List.cons_append, scan_cons_eq_some]
      obtain ⟨hclosed, rfl⟩ | ⟨hopen, m, hm, rfl⟩ := scan_cons_eq_some.mp h
      · exact .inl ⟨hclosed, rfl⟩
      · exact .inr ⟨hopen, m, ih _ m hm, rfl⟩

theorem scan_bounds (s : State) (cs : List Char) (n : Nat) (h : scan s cs = some n) :
    0 < n ∧ n ≤ cs.length := by
  induction cs generalizing s n with
  | nil => cases h
  | cons c rest ih =>
      obtain ⟨-, rfl⟩ | ⟨-, m, hm, rfl⟩ := scan_cons_eq_some.mp h
      · exact ⟨Nat.one_pos, Nat.le_add_left 1 rest.length⟩
      · exact ⟨Nat.succ_pos m, Nat.succ_le_succ (ih _ m hm).2⟩

/-- A text with a block at its start starts with a brace. -/
theorem eq_cons_of_length? {cs : List Char} {n : Nat} (h : length? cs = some n) :
    ∃ rest m, cs = '{' :: rest ∧ scan ⟨1, none⟩ rest = some m ∧ n = m + 1 := by
  unfold length? at h
  split at h
  · rename_i rest
    obtain ⟨m, hm, rfl⟩ := Option.map_eq_some_iff.mp h
    exact ⟨rest, m, rfl, hm, rfl⟩
  · cases h

theorem length?_append (cs more : List Char) (n : Nat) (h : length? cs = some n) :
    length? (cs ++ more) = some n := by
  obtain ⟨rest, m, rfl, hm, rfl⟩ := eq_cons_of_length? h
  simp only [List.cons_append, length?, scan_append _ _ more m hm, Option.map_some]

/-- A block that is closed before more text follows does not need it. -/
theorem scan_of_append (s : State) (cs more : List Char) (n : Nat) (h : scan s (cs ++ more) = some n)
    (hn : n ≤ cs.length) : scan s cs = some n := by
  induction cs generalizing s n with
  | nil =>
      have := (scan_bounds _ _ n h).1
      rw [List.length_nil] at hn
      omega
  | cons c rest ih =>
      rw [scan_cons_eq_some]
      obtain ⟨hclosed, rfl⟩ | ⟨hopen, m, hm, rfl⟩ := scan_cons_eq_some.mp h
      · exact .inl ⟨hclosed, rfl⟩
      · exact .inr ⟨hopen, m, ih _ m hm (Nat.le_of_succ_le_succ hn), rfl⟩

theorem length?_of_append (cs more : List Char) (n : Nat) (h : length? (cs ++ more) = some n)
    (hn : n ≤ cs.length) : length? cs = some n := by
  obtain ⟨rest, m, hrest, hm, rfl⟩ := eq_cons_of_length? h
  obtain ⟨tail, rfl, rfl⟩ : ∃ tail, cs = '{' :: tail ∧ rest = tail ++ more := by
    rcases List.append_eq_cons_iff.mp hrest with ⟨rfl, -⟩ | ⟨tail, rfl, rfl⟩
    · cases hn
    · exact ⟨tail, rfl, rfl⟩
  simp only [length?, scan_of_append _ _ more m hm (Nat.le_of_succ_le_succ hn), Option.map_some]

theorem length?_bounds (cs : List Char) (n : Nat) (h : length? cs = some n) :
    0 < n ∧ n ≤ cs.length := by
  obtain ⟨rest, m, rfl, hm, rfl⟩ := eq_cons_of_length? h
  have := (scan_bounds _ _ m hm).2
  exact ⟨Nat.succ_pos m, Nat.succ_le_succ this⟩

end Block

/-- The text starts with no character that could continue a name, a column, a number or a word. -/
def Apart (rest : List Char) : Prop := Text.StopsAt Pattern.continuesColumn rest

theorem apart_nil : Apart [] := Text.stopsAt_nil _

theorem apart_cons {c : Char} (h : Pattern.continuesColumn c = false) (rest : List Char) :
    Apart (c :: rest) :=
  Text.stopsAt_cons h rest

namespace Pattern

/-- A match takes at least one character, and no more than there are. -/
def Bounded (p : Pattern) : Prop :=
  ∀ cs n, p cs = some n → 0 < n ∧ n ≤ cs.length

/-- The pattern stops in front of whatever stands apart: nothing there changes the match. -/
def Stops (p : Pattern) : Prop :=
  ∀ cs rest, cs ≠ [] → Apart rest → p (cs ++ rest) = p cs

theorem literal_bounded {expected : List Char} (h : expected ≠ []) :
    Bounded (literal expected) := by
  intro cs n hmatch
  simp only [literal] at hmatch
  split at hmatch
  · rename_i hprefix
    obtain rfl := Option.some.inj hmatch
    exact ⟨List.length_pos_iff.mpr h, (List.isPrefixOf_iff_prefix.mp hprefix).length_le⟩
  · cases hmatch

theorem word_bounded {expected : List Char} (h : expected ≠ []) : Bounded (word expected) := by
  intro cs n hmatch
  simp only [word] at hmatch
  split at hmatch
  · rename_i hsame
    obtain rfl := Option.some.inj hmatch
    have hlength := congrArg List.length (beq_iff_eq.mp hsame)
    simp only [List.length_map, List.length_take] at hlength
    exact ⟨List.length_pos_iff.mpr h, by omega⟩
  · cases hmatch

theorem name_bounded (starts continues : Char → Bool) : Bounded (name starts continues) := by
  intro cs n hmatch
  cases cs with
  | nil => cases hmatch
  | cons c rest =>
      simp only [name] at hmatch
      split at hmatch
      · obtain rfl := Option.some.inj hmatch
        have := (List.takeWhile_sublist (l := rest) continues).length_le
        simp only [List.length_cons]
        omega
      · cases hmatch

theorem column_bounded : Bounded column := by
  intro cs n hmatch
  unfold column at hmatch
  split at hmatch
  · obtain ⟨m, hm, rfl⟩ := Option.map_eq_some_iff.mp hmatch
    have := (name_bounded _ _ _ m hm).2
    exact ⟨Nat.succ_pos m, Nat.succ_le_succ this⟩
  · cases hmatch

theorem quotedRest_bounded (quote : Char) : Bounded (quotedRest quote) := by
  intro cs n hmatch
  fun_induction quotedRest quote cs generalizing n with
  | case1 => cases hmatch
  | case2 => cases hmatch
  | case3 => cases hmatch
  | case4 c rest hc ih =>
      obtain ⟨m, hm, rfl⟩ := Option.map_eq_some_iff.mp hmatch
      have := (ih m hm).2
      simp only [List.length_cons]
      omega
  | case5 rest _ =>
      obtain rfl := Option.some.inj hmatch
      exact ⟨Nat.one_pos, Nat.le_add_left 1 rest.length⟩
  | case6 c rest _ hc ih =>
      obtain ⟨m, hm, rfl⟩ := Option.map_eq_some_iff.mp hmatch
      have := (ih m hm).2
      exact ⟨Nat.succ_pos m, Nat.succ_le_succ this⟩

theorem string_bounded : Bounded string := by
  intro cs n hmatch
  cases cs with
  | nil => cases hmatch
  | cons c rest =>
      simp only [string] at hmatch
      split at hmatch
      · obtain ⟨m, hm, rfl⟩ := Option.map_eq_some_iff.mp hmatch
        have := (quotedRest_bounded c rest m hm).2
        exact ⟨Nat.succ_pos m, Nat.succ_le_succ this⟩
      · cases hmatch

theorem unsignedNumber_bounded : Bounded unsignedNumber := by
  intro cs n hmatch
  have hwhole := (List.takeWhile_sublist (l := cs) Char.isDigit).length_le
  simp only [unsignedNumber] at hmatch
  split at hmatch
  · cases hmatch
  · rename_i hpositive
    split at hmatch
    · rename_i rest hrest
      have hlength := congrArg List.length hrest
      have hfraction := (List.takeWhile_sublist (l := rest) Char.isDigit).length_le
      simp only [List.length_drop, List.length_cons] at hlength
      obtain rfl := Option.some.inj hmatch
      split <;> omega
    · obtain rfl := Option.some.inj hmatch
      omega

theorem number_bounded : Bounded number := by
  intro cs n hmatch
  unfold number at hmatch
  split at hmatch
  · obtain ⟨m, hm, rfl⟩ := Option.map_eq_some_iff.mp hmatch
    have := (unsignedNumber_bounded _ m hm).2
    exact ⟨Nat.succ_pos m, Nat.succ_le_succ this⟩
  · exact unsignedNumber_bounded cs n hmatch

theorem unitLiteral_bounded : Bounded unitLiteral := by
  intro cs n hmatch
  simp only [unitLiteral] at hmatch
  split at hmatch
  · cases hmatch
  · rename_i m hm
    have hnumber := unsignedNumber_bounded cs m hm
    have hletters := (List.takeWhile_sublist (l := cs.drop m) Char.isAlpha).length_le
    simp only [List.length_drop] at hletters
    split at hmatch
    · cases hmatch
    · obtain rfl := Option.some.inj hmatch
      omega

theorem all_bounded : ∀ p ∈ all, Bounded p.2 := by
  simp only [all, List.forall_mem_cons]
  exact ⟨literal_bounded (by simp), literal_bounded (by simp), literal_bounded (by simp),
    literal_bounded (by simp), literal_bounded (by simp), literal_bounded (by simp),
    literal_bounded (by simp), word_bounded (by simp), word_bounded (by simp), column_bounded,
    string_bounded, number_bounded, unitLiteral_bounded, name_bounded _ _, Block.length?_bounds,
    List.forall_mem_nil _⟩

/-- The longest match is a match of one of the patterns. -/
theorem longest_mem {cs : List Char} {kind : Kind} {n : Nat} (h : longest cs = some (kind, n)) :
    ∃ p, (kind, p) ∈ all ∧ p cs = some n := by
  have hfold : ∀ (patterns : List (Kind × Pattern)) (best : Option (Kind × Nat)),
      patterns.foldl (fun best p => longer best p.1 (p.2 cs)) best = some (kind, n) →
      best = some (kind, n) ∨ ∃ p, (kind, p) ∈ patterns ∧ p cs = some n := by
    intro patterns
    induction patterns with
    | nil => exact fun best h => Or.inl h
    | cons p rest ih =>
        intro best hbest
        rcases ih _ hbest with hfirst | ⟨q, hq, hmatch⟩
        · obtain ⟨k, pattern⟩ := p
          simp only [longer] at hfirst
          split at hfirst
          · exact Or.inl hfirst
          · rename_i m hm
            split at hfirst
            · split at hfirst
              · obtain ⟨rfl, rfl⟩ := Prod.mk.inj (Option.some.inj hfirst)
                exact Or.inr ⟨pattern, List.mem_cons_self, hm⟩
              · exact Or.inl hfirst
            · obtain ⟨rfl, rfl⟩ := Prod.mk.inj (Option.some.inj hfirst)
              exact Or.inr ⟨pattern, List.mem_cons_self, hm⟩
        · exact Or.inr ⟨q, List.mem_cons_of_mem p hq, hmatch⟩
  rcases hfold all none h with hnone | hmem
  · cases hnone
  · exact hmem

theorem longest_bounds {cs : List Char} {kind : Kind} {n : Nat} (h : longest cs = some (kind, n)) :
    0 < n ∧ n ≤ cs.length := by
  obtain ⟨p, hmem, hmatch⟩ := longest_mem h
  exact all_bounded _ hmem cs n hmatch

/-- Only the pattern of blocks makes blocks, so a block starts with a brace. -/
theorem eq_cons_of_longest_block {cs : List Char} {n : Nat} (h : longest cs = some (.block, n)) :
    ∃ rest, cs = '{' :: rest := by
  obtain ⟨p, hmem, hmatch⟩ := longest_mem h
  obtain rfl : p = block := by simpa [all] using hmem
  obtain ⟨rest, _, hcs, _⟩ := Block.eq_cons_of_length? hmatch
  exact ⟨rest, hcs⟩

theorem continuesName_of_isAlpha {c : Char} (h : c.isAlpha = true) : continuesName c = true := by
  rw [continuesName, Char.isAlphanum, h]
  rfl

theorem continuesName_of_isDigit {c : Char} (h : c.isDigit = true) : continuesName c = true := by
  rw [continuesName, Char.isAlphanum, h, Bool.or_true]
  rfl

theorem continuesColumn_of_continuesName {c : Char} (h : continuesName c = true) :
    continuesColumn c = true := by
  rw [continuesColumn, h]
  rfl

theorem continuesName_of_startsName {c : Char} (h : startsName c = true) :
    continuesName c = true := by
  rcases Bool.or_eq_true _ _ ▸ h with hletter | hunderscore
  · exact continuesName_of_isAlpha hletter
  · rw [beq_iff_eq.mp hunderscore]
    decide

theorem continuesColumn_of_startsColumn {c : Char} (h : startsColumn c = true) :
    continuesColumn c = true := by
  simp only [startsColumn, Bool.or_eq_true] at h
  rcases h with (hname | hsign) | hsign
  · exact continuesColumn_of_continuesName (continuesName_of_startsName hname)
  · rw [beq_iff_eq.mp hsign]
    decide
  · rw [beq_iff_eq.mp hsign]
    decide

theorem takeWhile_append_apart {p : Char → Bool} {rest : List Char} (hrest : Apart rest)
    (h : ∀ c, p c = true → continuesColumn c = true) (cs : List Char) :
    (cs ++ rest).takeWhile p = cs.takeWhile p :=
  Text.takeWhile_append_left (hrest.mono h) cs

theorem isPrefixOf_append_apart {expected rest : List Char} (hrest : Apart rest)
    (h : ∀ e ∈ expected, continuesColumn e = true) (cs : List Char) :
    expected.isPrefixOf (cs ++ rest) = expected.isPrefixOf cs := by
  induction expected generalizing cs with
  | nil => cases cs <;> rfl
  | cons e more ih =>
      obtain ⟨he, hmore⟩ := List.forall_mem_cons.mp h
      cases cs with
      | nil =>
          cases rest with
          | nil => rfl
          | cons c rest =>
              have hne : (e == c) = false := by
                refine beq_eq_false_iff_ne.mpr ?_
                rintro rfl
                rw [hrest e rfl] at he
                cases he
              simp [List.isPrefixOf, hne]
      | cons c cs => simp only [List.cons_append, List.isPrefixOf, ih hmore cs]

/-- The first character of a literal may be any, since it is one of the text. -/
theorem literal_stops {e : Char} {more : List Char} (h : ∀ e ∈ more, continuesColumn e = true) :
    Stops (literal (e :: more)) := by
  intro cs rest hne hrest
  obtain ⟨c, cs, rfl⟩ := List.exists_cons_of_ne_nil hne
  simp only [literal, List.cons_append, List.isPrefixOf, isPrefixOf_append_apart hrest h]
  rfl

/-- A text that is too short for the word does not become longer by what follows. -/
theorem word_stops {expected : List Char} (h : ∀ e ∈ expected, e.toLower.isAlpha = true) :
    Stops (word expected) := by
  intro cs rest _ hrest
  have hsame : Text.sameIgnoringCase expected ((cs ++ rest).take expected.length) =
      Text.sameIgnoringCase expected (cs.take expected.length) := by
    by_cases hlength : expected.length ≤ cs.length
    · rw [List.take_append_of_le_length hlength]
    · have hshort : Text.sameIgnoringCase expected (cs.take expected.length) = false := by
        refine beq_eq_false_iff_ne.mpr fun heq => hlength ?_
        have := congrArg List.length heq
        simp only [List.length_map, List.length_take] at this
        omega
      obtain ⟨k, hk⟩ : ∃ k, expected.length - cs.length = k + 1 :=
        ⟨expected.length - cs.length - 1, by omega⟩
      rw [hshort]
      cases rest with
      | nil => rw [List.append_nil, hshort]
      | cons c rest =>
          refine Bool.eq_false_iff.mpr fun hsame => ?_
          have hmem : c ∈ (cs ++ c :: rest).take expected.length := by
            rw [List.take_append, hk]
            exact List.mem_append_right _ List.mem_cons_self
          have hletter := Text.isAlpha_of_sameIgnoringCase h hsame c hmem
          have hstop : continuesColumn c = false := hrest c rfl
          rw [continuesColumn_of_continuesName (continuesName_of_isAlpha hletter)] at hstop
          cases hstop
  simp only [word, hsame]

theorem name_append_apart {starts continues : Char → Bool}
    (hstarts : ∀ c, starts c = true → continuesColumn c = true)
    (hcontinues : ∀ c, continues c = true → continuesColumn c = true) {rest : List Char}
    (hrest : Apart rest) (cs : List Char) :
    name starts continues (cs ++ rest) = name starts continues cs := by
  cases cs with
  | nil =>
      cases rest with
      | nil => rfl
      | cons c rest =>
          have hc : starts c = false := (hrest.mono hstarts) c rfl
          simp [name, hc]
  | cons c cs =>
      simp only [List.cons_append, name, takeWhile_append_apart hrest hcontinues]

theorem identifier_stops : Stops identifier :=
  fun cs _ _ hrest => name_append_apart
    (fun _ hc => continuesColumn_of_continuesName (continuesName_of_startsName hc))
    (fun _ => continuesColumn_of_continuesName) hrest cs

theorem column_stops : Stops column := by
  intro cs rest hne hrest
  obtain ⟨c, cs, rfl⟩ := List.exists_cons_of_ne_nil hne
  by_cases hc : c = ':'
  · subst hc
    have hname := name_append_apart (fun _ => continuesColumn_of_startsColumn)
      (fun _ hc => hc) hrest cs
    simp only [List.cons_append, column, hname]
  · simp [column, hc]

theorem unsignedNumber_append_apart {rest : List Char} (hrest : Apart rest) (cs : List Char) :
    unsignedNumber (cs ++ rest) = unsignedNumber cs := by
  have hdigit : ∀ c : Char, c.isDigit = true → continuesColumn c = true :=
    fun _ hc => continuesColumn_of_continuesName (continuesName_of_isDigit hc)
  have hwhole := (List.takeWhile_sublist (l := cs) Char.isDigit).length_le
  simp only [unsignedNumber, takeWhile_append_apart hrest hdigit,
    List.drop_append_of_le_length hwhole]
  cases htail : cs.drop (cs.takeWhile Char.isDigit).length with
  | nil =>
      -- no point can follow, since it would continue a column
      rw [List.nil_append]
      cases rest with
      | nil => rfl
      | cons c rest =>
          have hc : c ≠ '.' := by
            rintro rfl
            exact absurd (hrest '.' rfl) (by decide)
          simp [hc]
  | cons c tail =>
      by_cases hc : c = '.'
      · subst hc
        simp only [List.cons_append, takeWhile_append_apart hrest hdigit]
      · simp [hc]

theorem number_stops : Stops number := by
  intro cs rest hne hrest
  obtain ⟨c, cs, rfl⟩ := List.exists_cons_of_ne_nil hne
  by_cases hc : c = '-'
  · subst hc
    simp only [List.cons_append, number, unsignedNumber_append_apart hrest]
  · simpa [number, hc] using unsignedNumber_append_apart hrest (c :: cs)

theorem unitLiteral_stops : Stops unitLiteral := by
  intro cs rest _ hrest
  have halpha : ∀ c : Char, c.isAlpha = true → continuesColumn c = true :=
    fun _ hc => continuesColumn_of_continuesName (continuesName_of_isAlpha hc)
  simp only [unitLiteral, unsignedNumber_append_apart hrest]
  cases hnumber : unsignedNumber cs with
  | none => rfl
  | some n =>
      have hn := (unsignedNumber_bounded cs n hnumber).2
      simp only [List.drop_append_of_le_length hn, takeWhile_append_apart hrest halpha]

/-- A quoted text that has ended stays as it is when more text follows. -/
theorem quotedRest_append (quote : Char) (cs more : List Char) (n : Nat)
    (h : quotedRest quote cs = some n) : quotedRest quote (cs ++ more) = some n := by
  fun_induction quotedRest quote cs generalizing n with
  | case1 => cases h
  | case2 => cases h
  | case3 => cases h
  | case4 c rest hc ih =>
      obtain ⟨m, hm, rfl⟩ := Option.map_eq_some_iff.mp h
      simp only [List.cons_append, quotedRest, if_neg hc, ih m hm, Option.map_some]
  | case5 rest hne =>
      simp [quotedRest, h]
  | case6 c rest hne hc ih =>
      obtain ⟨m, hm, rfl⟩ := Option.map_eq_some_iff.mp h
      simp [quotedRest, hc, ih m hm]

/-- A quoted text that ends before more text follows does not need it. -/
theorem quotedRest_of_append (quote : Char) (cs more : List Char) (n : Nat)
    (h : quotedRest quote (cs ++ more) = some n) (hn : n ≤ cs.length) :
    quotedRest quote cs = some n := by
  fun_induction quotedRest quote cs generalizing n with
  | case1 =>
      have := (quotedRest_bounded quote _ n h).1
      rw [List.length_nil] at hn
      omega
  | case2 =>
      -- a backslash takes the character behind it along
      rw [List.length_singleton] at hn
      cases more with
      | nil => cases h
      | cons c more =>
          by_cases hc : c = '\n'
          · simp [quotedRest, hc] at h
          · simp only [List.singleton_append, quotedRest, if_neg hc] at h
            obtain ⟨m, -, rfl⟩ := Option.map_eq_some_iff.mp h
            omega
  | case3 => simp [quotedRest] at h
  | case4 c rest hc ih =>
      simp only [List.cons_append, quotedRest, if_neg hc] at h ⊢
      obtain ⟨m, hm, rfl⟩ := Option.map_eq_some_iff.mp h
      rw [List.length_cons, List.length_cons] at hn
      rw [ih m hm (by omega), Option.map_some]
  | case5 rest hne => simpa [quotedRest] using h
  | case6 c rest hne hc ih =>
      simp only [List.cons_append, quotedRest, if_neg hc] at h ⊢
      obtain ⟨m, hm, rfl⟩ := Option.map_eq_some_iff.mp h
      rw [ih m hm (Nat.le_of_succ_le_succ hn), Option.map_some]

/-- At a quote nothing but a quoted text can start. -/
theorem longest_of_isQuote {c : Char} (h : Block.isQuote c = true) (rest : List Char) :
    longest (c :: rest) = (string (c :: rest)).map (Kind.string, ·) := by
  rcases Block.isQuote_iff.mp h with rfl | rfl <;> cases hstring : string _ <;>
    simp [longest, all, literal, word, column, number, unsignedNumber, unitLiteral, identifier,
      name, startsName, block, Block.length?, longer, Text.sameIgnoringCase, hstring]

/-- At a brace nothing but a block can start. -/
theorem longest_of_brace (rest : List Char) :
    longest ('{' :: rest) = (block ('{' :: rest)).map (Kind.block, ·) := by
  cases hblock : block ('{' :: rest) <;>
    simp [longest, all, literal, word, column, string, Block.isQuote, number, unsignedNumber,
      unitLiteral, identifier, name, startsName, longer, Text.sameIgnoringCase, hblock]

/-- Away from quotes and braces all patterns stop in front of what stands apart. -/
theorem longest_of_plain {c : Char} (hquote : Block.isQuote c = false) (hbrace : c ≠ '{')
    (cs : List Char) {rest : List Char} (hrest : Apart rest) :
    longest (c :: cs ++ rest) = longest (c :: cs) := by
  have hstring : string (c :: cs ++ rest) = string (c :: cs) := by
    simp [string, hquote]
  have hblock : block (c :: cs ++ rest) = block (c :: cs) := by
    simp [block, Block.length?, hbrace]
  have hne := List.cons_ne_nil c cs
  have hsign : ∀ e : Char, literal [e] (c :: cs ++ rest) = literal [e] (c :: cs) :=
    fun e => literal_stops (List.forall_mem_nil _) _ _ hne hrest
  have hall : ∀ p ∈ all, p.2 (c :: cs ++ rest) = p.2 (c :: cs) := by
    simp only [all, List.forall_mem_cons]
    exact ⟨hsign _, literal_stops (by simp [continuesColumn, continuesName]) _ _ hne hrest,
      hsign _, hsign _, hsign _, hsign _, hsign _, word_stops (by simp) _ _ hne hrest, word_stops (by simp) _ _ hne hrest,
      column_stops _ _ hne hrest, hstring, number_stops _ _ hne hrest,
      unitLiteral_stops _ _ hne hrest, identifier_stops _ _ hne hrest, hblock,
      List.forall_mem_nil _⟩
  exact List.foldl_ext _ _ none fun best p hp => by rw [hall p hp]

/-- A lexeme at the start of a text is found there again when something follows that stands apart. -/
theorem longest_append {cs rest : List Char} {found : Kind × Nat} (hne : cs ≠ [])
    (h : longest cs = some found) (hrest : Apart rest) : longest (cs ++ rest) = some found := by
  obtain ⟨c, cs, rfl⟩ := List.exists_cons_of_ne_nil hne
  by_cases hquote : Block.isQuote c = true
  · rw [longest_of_isQuote hquote] at h
    obtain ⟨n, hn, rfl⟩ := Option.map_eq_some_iff.mp h
    obtain ⟨m, hm, rfl⟩ : ∃ m, quotedRest c cs = some m ∧ m + 1 = n := by
      simpa [string, hquote] using hn
    rw [List.cons_append, longest_of_isQuote hquote]
    simp [string, hquote, quotedRest_append c cs rest m hm]
  · by_cases hbrace : c = '{'
    · subst hbrace
      rw [longest_of_brace] at h
      obtain ⟨n, hn, rfl⟩ := Option.map_eq_some_iff.mp h
      rw [List.cons_append, longest_of_brace, block, ← List.cons_append,
        Block.length?_append _ _ n hn, Option.map_some]
    · rw [longest_of_plain (Bool.eq_false_iff.mpr hquote) hbrace cs hrest, h]

/-- A lexeme that ends in front of what stands apart is found without it too. -/
theorem longest_of_append {cs rest : List Char} {kind : Kind} {n : Nat} (hne : cs ≠ [])
    (hrest : Apart rest) (h : longest (cs ++ rest) = some (kind, n)) (hn : n ≤ cs.length) :
    longest cs = some (kind, n) := by
  obtain ⟨c, cs, rfl⟩ := List.exists_cons_of_ne_nil hne
  by_cases hquote : Block.isQuote c = true
  · rw [List.cons_append, longest_of_isQuote hquote] at h
    obtain ⟨k, hk, heq⟩ := Option.map_eq_some_iff.mp h
    obtain ⟨rfl, rfl⟩ := Prod.mk.inj heq
    obtain ⟨m, hm, rfl⟩ : ∃ m, quotedRest c (cs ++ rest) = some m ∧ m + 1 = k := by
      simpa [string, hquote] using hk
    rw [longest_of_isQuote hquote]
    simp [string, hquote, quotedRest_of_append c cs rest m hm (Nat.le_of_succ_le_succ hn)]
  · by_cases hbrace : c = '{'
    · subst hbrace
      rw [List.cons_append, longest_of_brace] at h
      obtain ⟨k, hk, heq⟩ := Option.map_eq_some_iff.mp h
      obtain ⟨rfl, rfl⟩ := Prod.mk.inj heq
      rw [longest_of_brace, block, Block.length?_of_append ('{' :: cs) rest k hk hn, Option.map_some]
    · rwa [longest_of_plain (Bool.eq_false_iff.mpr hquote) hbrace cs hrest] at h

end Pattern

end RowRecipe.Lexeme
