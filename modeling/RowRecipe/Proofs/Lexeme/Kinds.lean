import RowRecipe.Proofs.Lexeme.Blocks
import RowRecipe.Proofs.Lexeme.Endings
import RowRecipe.Proofs.Written.Spelling

/-!
The texts of each kind of lexeme, said without the patterns. A pattern finds the longest of these
texts that its own text starts with, so what `longest` finds is a text of its kind, and no text of any
kind reaches further.
-/

namespace RowRecipe.Lexeme

open Pattern

/-- The texts that a lexeme of the kind may have. -/
def Kind.Matches : Kind → List Char → Prop
  | .newline, cs => cs = ['\n']
  | .pragma, cs => cs = "#pragma".toList
  | .semicolon, cs => cs = [';']
  | .comma, cs => cs = [',']
  | .colon, cs => cs = [':']
  | .equals, cs => cs = ['=']
  | .bang, cs => cs = ['!']
  | .bool, cs => ∃ b, Text.sameIgnoringCase (boolName b).toList cs = true
  | .column, cs => ∃ first more, startsColumn first = true ∧ (∀ c ∈ more, continuesColumn c = true) ∧
      cs = ':' :: first :: more
  | .string, cs => ∃ quote payload, Block.isQuote quote = true ∧ Written.Payload quote payload ∧
      cs = quote :: (payload ++ [quote])
  | .number, cs => IsNumber cs
  | .unitLiteral, cs => IsUnitLiteral cs
  | .identifier, cs => IsName cs
  | .block, cs => ∃ inner, Block.Balanced inner ∧ cs = '{' :: (inner ++ ['}'])

namespace Pattern

variable {cs found : List Char} {kind : Kind} {n : Nat}

theorem payload_of_quotedRest {quote : Char} (h : quotedRest quote cs = some n) :
    ∃ payload, Written.Payload quote payload ∧ cs.take n = payload ++ [quote] := by
  fun_induction quotedRest quote cs generalizing n with
  | case1 => cases h
  | case2 => cases h
  | case3 => cases h
  | case4 c rest hc ih =>
      obtain ⟨m, hm, rfl⟩ := Option.map_eq_some_iff.mp h
      obtain ⟨payload, hpayload, htake⟩ := ih hm
      refine ⟨'\\' :: c :: payload, .pair hc hpayload, ?_⟩
      rw [List.take_succ_cons, List.take_succ_cons, htake]
      rfl
  | case5 rest _ =>
      obtain rfl := Option.some.inj h
      exact ⟨[], .nil, rfl⟩
  | case6 c rest hbackslash hc ih =>
      obtain ⟨m, hm, rfl⟩ := Option.map_eq_some_iff.mp h
      obtain ⟨payload, hpayload, htake⟩ := ih hm
      refine ⟨c :: payload, .plain hc hbackslash hpayload, ?_⟩
      rw [List.take_succ_cons, htake]
      rfl

theorem matches_of_column (h : column cs = some n) : Kind.column.Matches (cs.take n) := by
  unfold column at h
  split at h
  · obtain ⟨m, hm, rfl⟩ := Option.map_eq_some_iff.mp h
    obtain ⟨first, more, htake, hfirst, hmore⟩ := take_of_name hm
    exact ⟨first, more, hfirst, hmore, by rw [List.take_succ_cons, htake]⟩
  · cases h

theorem matches_of_string (h : string cs = some n) : Kind.string.Matches (cs.take n) := by
  cases cs with
  | nil => cases h
  | cons quote rest =>
      simp only [string] at h
      split at h
      · rename_i hquote
        obtain ⟨m, hm, rfl⟩ := Option.map_eq_some_iff.mp h
        obtain ⟨payload, hpayload, htake⟩ := payload_of_quotedRest hm
        exact ⟨quote, payload, hquote, hpayload, by rw [List.take_succ_cons, htake]⟩
      · cases h

theorem matches_of_block (h : block cs = some n) : Kind.block.Matches (cs.take n) := by
  obtain ⟨inner, rest, hinner, rfl, rfl⟩ := Block.length?_eq_some_iff.mp h
  refine ⟨inner, hinner, ?_⟩
  have hwhole : '{' :: (inner ++ '}' :: rest) = ('{' :: (inner ++ ['}'])) ++ rest := by
    simp only [List.cons_append, List.append_assoc, List.nil_append]
  have hlength : inner.length + 2 = ('{' :: (inner ++ ['}'])).length := by
    simp only [List.length_cons, List.length_append, List.length_nil]
  rw [hwhole, hlength, List.take_left]

theorem matches_of_all : ∀ q ∈ all, ∀ cs n, q.2 cs = some n → q.1.Matches (cs.take n) := by
  simp only [all, List.forall_mem_cons]
  exact ⟨fun _ _ => take_of_literal, fun _ _ => take_of_literal, fun _ _ => take_of_literal,
    fun _ _ => take_of_literal, fun _ _ => take_of_literal, fun _ _ => take_of_literal,
    fun _ _ => take_of_literal, fun _ _ h => ⟨true, (word_eq_some h).2⟩,
    fun _ _ h => ⟨false, (word_eq_some h).2⟩, fun _ _ => matches_of_column,
    fun _ _ => matches_of_string, fun _ _ => isNumber_of_number,
    fun _ _ => isUnitLiteral_of_unitLiteral, fun _ _ => take_of_name, fun _ _ => matches_of_block,
    List.forall_mem_nil _⟩

/-- The pattern finds at least this much wherever the text stands. -/
def Reaches (p : Pattern) (found : List Char) : Prop :=
  ∀ rest, ∃ n, p (found ++ rest) = some n ∧ found.length ≤ n

theorem reaches_literal (expected : List Char) : Reaches (literal expected) expected := by
  intro rest
  refine ⟨expected.length, ?_, Nat.le_refl _⟩
  rw [literal, if_pos (List.isPrefixOf_iff_prefix.mpr (List.prefix_append expected rest))]

theorem reaches_word {b : Bool} (h : Text.sameIgnoringCase (boolName b).toList found = true) :
    Reaches (word (boolName b).toList) found :=
  fun rest => ⟨found.length, Written.word_of_spells h rest, Nat.le_refl _⟩

theorem reaches_name {starts continues : Char → Bool} {first : Char} {more : List Char}
    (hfirst : starts first = true) (hmore : ∀ c ∈ more, continues c = true) :
    Reaches (name starts continues) (first :: more) := by
  intro rest
  refine ⟨1 + (more.length + (rest.takeWhile continues).length), ?_, ?_⟩
  · rw [List.cons_append, name, if_pos hfirst, List.takeWhile_append_of_pos hmore,
      List.length_append]
  · rw [List.length_cons]
    omega

theorem reaches_column {first : Char} {more : List Char} (hfirst : startsColumn first = true)
    (hmore : ∀ c ∈ more, continuesColumn c = true) : Reaches column (':' :: first :: more) := by
  intro rest
  obtain ⟨n, hn, hle⟩ := reaches_name hfirst hmore rest
  refine ⟨n + 1, ?_, Nat.succ_le_succ hle⟩
  rw [List.cons_append, column, hn, Option.map_some]

theorem reaches_string {quote : Char} {payload : List Char} (hquote : Block.isQuote quote = true)
    (hpayload : Written.Payload quote payload) : Reaches string (quote :: (payload ++ [quote])) := by
  intro rest
  refine ⟨payload.length + 1 + 1, ?_, by simp⟩
  have hrest := Written.quotedRest_payload hpayload (Block.quote_ne_backslash hquote) rest
  rw [List.cons_append, List.append_assoc, List.singleton_append, string, if_pos hquote, hrest,
    Option.map_some]

theorem reaches_unsignedNumber (h : IsDecimal found) : Reaches unsignedNumber found := by
  intro rest
  cases h with
  | whole hne hdigits =>
      have hlength : 0 < found.length := List.length_pos_iff.mpr hne
      simp only [unsignedNumber, List.takeWhile_append_of_pos hdigits, List.length_append]
      rw [if_neg (by omega)]
      split
      · refine ⟨_, rfl, ?_⟩
        split
        · omega
        · omega
      · exact ⟨_, rfl, by omega⟩
  | @fraction digits more hne hdigits hne' hmore =>
      have hlength : 0 < digits.length := List.length_pos_iff.mpr hne
      have hlength' : 0 < more.length := List.length_pos_iff.mpr hne'
      have hstop : Text.StopsAt Char.isDigit ('.' :: (more ++ rest)) :=
        Text.stopsAt_cons (by decide) _
      refine ⟨digits.length + 1 + (more ++ rest.takeWhile Char.isDigit).length, ?_, ?_⟩
      · simp only [List.append_assoc, List.cons_append, unsignedNumber,
          Text.takeWhile_append_of_stopsAt hdigits hstop, List.drop_left,
          List.takeWhile_append_of_pos hmore, List.length_append]
        rw [if_neg (by omega), if_neg (by omega)]
      · simp only [List.length_append, List.length_cons]
        omega

theorem reaches_number (h : IsNumber found) : Reaches number found := by
  intro rest
  cases h with
  | plain h =>
      obtain ⟨n, hn, hle⟩ := reaches_unsignedNumber h rest
      obtain ⟨c, more, rfl, hc⟩ := h.head
      exact ⟨n, (number_of_isDigit hc _).trans hn, hle⟩
  | @negative cs h =>
      obtain ⟨n, hn, hle⟩ := reaches_unsignedNumber h rest
      refine ⟨n + 1, ?_, Nat.succ_le_succ hle⟩
      rw [List.cons_append, number, hn, Option.map_some]

theorem reaches_unitLiteral (h : IsUnitLiteral found) : Reaches unitLiteral found := by
  obtain ⟨number, suffix, rfl, hnumber, hsuffix⟩ := h
  intro rest
  have hstop : Text.StopsAt isDecimalPart (suffix ++ rest) := by
    obtain ⟨c, letters, rfl⟩ := List.exists_cons_of_ne_nil hsuffix.nonempty
    exact Text.stopsAt_cons (isDecimalPart_of_isAlpha (hsuffix.letters c List.mem_cons_self)) _
  have hpos : 0 < suffix.length := List.length_pos_iff.mpr hsuffix.nonempty
  refine ⟨number.length + (suffix.length + (rest.takeWhile Char.isAlpha).length), ?_, ?_⟩
  · simp only [List.append_assoc, unitLiteral, unsignedNumber_append hnumber hstop, List.drop_left,
      List.takeWhile_append_of_pos hsuffix.letters, List.length_append]
    rw [if_neg (by omega)]
  · rw [List.length_append]
    omega

theorem reaches_block {inner : List Char} (h : Block.Balanced inner) :
    Reaches block ('{' :: (inner ++ ['}'])) := by
  intro rest
  refine ⟨inner.length + 2, ?_, by simp⟩
  rw [List.cons_append, List.append_assoc, List.singleton_append, block]
  exact Block.length?_of_balanced h rest

/-- Every text of a kind is matched by a pattern of the kind. -/
theorem exists_reaches (h : kind.Matches found) : ∃ p, (kind, p) ∈ all ∧ Reaches p found := by
  have hliteral : ∀ expected, (kind, literal expected) ∈ all → found = expected →
      ∃ p, (kind, p) ∈ all ∧ Reaches p found := by
    rintro expected hmem rfl
    exact ⟨literal found, hmem, reaches_literal found⟩
  cases kind with
  | newline => exact hliteral ['\n'] (by simp [all]) h
  | pragma => exact hliteral "#pragma".toList (by simp [all]) h
  | semicolon => exact hliteral [';'] (by simp [all]) h
  | comma => exact hliteral [','] (by simp [all]) h
  | colon => exact hliteral [':'] (by simp [all]) h
  | equals => exact hliteral ['='] (by simp [all]) h
  | bang => exact hliteral ['!'] (by simp [all]) h
  | bool =>
      obtain ⟨b, hb⟩ := h
      exact ⟨word (boolName b).toList, by cases b <;> simp [all, boolName], reaches_word hb⟩
  | column =>
      obtain ⟨first, more, hfirst, hmore, rfl⟩ := h
      exact ⟨column, by simp [all], reaches_column hfirst hmore⟩
  | string =>
      obtain ⟨quote, payload, hquote, hpayload, rfl⟩ := h
      exact ⟨string, by simp [all], reaches_string hquote hpayload⟩
  | number => exact ⟨number, by simp [all], reaches_number h⟩
  | unitLiteral => exact ⟨unitLiteral, by simp [all], reaches_unitLiteral h⟩
  | identifier =>
      obtain ⟨first, more, rfl, hfirst, hmore⟩ := h
      exact ⟨identifier, by simp [all], reaches_name hfirst hmore⟩
  | block =>
      obtain ⟨inner, hinner, rfl⟩ := h
      exact ⟨block, by simp [all], reaches_block hinner⟩

theorem exists_longer (best : Option (Kind × Nat)) (kind : Kind) (result : Option Nat) :
    (∀ b ∈ best, ∃ r ∈ longer best kind result, b.2 ≤ r.2) ∧
      ∀ m ∈ result, ∃ r ∈ longer best kind result, m ≤ r.2 := by
  cases result with
  | none => exact ⟨fun b hb => ⟨b, hb, Nat.le_refl _⟩, fun m hm => by cases hm⟩
  | some m =>
      cases best with
      | none =>
          constructor
          · intro b hb
            cases hb
          · intro m' hm
            obtain rfl := Option.some.inj hm
            exact ⟨(kind, m), rfl, Nat.le_refl _⟩
      | some best =>
          by_cases hlt : best.2 < m
          · have hlonger : longer (some best) kind (some m) = some (kind, m) := by
              simp only [longer, if_pos hlt]
            rw [hlonger]
            constructor
            · intro b hb
              obtain rfl := Option.some.inj hb
              exact ⟨(kind, m), rfl, Nat.le_of_lt hlt⟩
            · intro m' hm
              obtain rfl := Option.some.inj hm
              exact ⟨(kind, m), rfl, Nat.le_refl _⟩
          · have hlonger : longer (some best) kind (some m) = some best := by
              simp only [longer, if_neg hlt]
            rw [hlonger]
            constructor
            · intro b hb
              exact ⟨b, hb, Nat.le_refl _⟩
            · intro m' hm
              obtain rfl := Option.some.inj hm
              exact ⟨best, rfl, Nat.le_of_not_lt hlt⟩

/-- No match is lost on the way through the patterns. -/
theorem exists_foldl_longer (patterns : List (Kind × Pattern)) (best : Option (Kind × Nat)) :
    (∀ b ∈ best, ∃ r ∈ patterns.foldl (fun best q => longer best q.1 (q.2 cs)) best, b.2 ≤ r.2) ∧
      ∀ q ∈ patterns, ∀ m ∈ q.2 cs,
        ∃ r ∈ patterns.foldl (fun best q => longer best q.1 (q.2 cs)) best, m ≤ r.2 := by
  induction patterns generalizing best with
  | nil => exact ⟨fun b hb => ⟨b, hb, Nat.le_refl _⟩, List.forall_mem_nil _⟩
  | cons q rest ih =>
      obtain ⟨hkept, hfound⟩ := ih (longer best q.1 (q.2 cs))
      obtain ⟨hbest, hresult⟩ := exists_longer best q.1 (q.2 cs)
      constructor
      · intro b hb
        obtain ⟨r, hr, hle⟩ := hbest b hb
        obtain ⟨last, hlast, hle'⟩ := hkept r hr
        exact ⟨last, hlast, Nat.le_trans hle hle'⟩
      · refine List.forall_mem_cons.mpr ⟨fun m hm => ?_, hfound⟩
        obtain ⟨r, hr, hle⟩ := hresult m hm
        obtain ⟨last, hlast, hle'⟩ := hkept r hr
        exact ⟨last, hlast, Nat.le_trans hle hle'⟩

/-- Whatever a pattern matches, something at least as long is found. -/
theorem exists_longest {q : Kind × Pattern} (hq : q ∈ all) {m : Nat} (hm : q.2 cs = some m) :
    ∃ kind n, longest cs = some (kind, n) ∧ m ≤ n := by
  obtain ⟨⟨kind, n⟩, hlongest, hle⟩ := (exists_foldl_longer all none).2 q hq m hm
  exact ⟨kind, n, hlongest, hle⟩

end Pattern

open Pattern

variable {cs text found rest : List Char} {kind k : Kind} {n : Nat}

theorem Kind.Matches.exists_longest (h : kind.Matches found) (rest : List Char) :
    ∃ k n, longest (found ++ rest) = some (k, n) ∧ found.length ≤ n := by
  obtain ⟨p, hp, hreaches⟩ := exists_reaches h
  obtain ⟨m, hm, hle⟩ := hreaches rest
  obtain ⟨k, n, hlongest, hle'⟩ := Pattern.exists_longest hp hm
  exact ⟨k, n, hlongest, Nat.le_trans hle hle'⟩

theorem matches_of_longest (h : longest cs = some (kind, n)) : kind.Matches (cs.take n) := by
  obtain ⟨p, hp, hmatch⟩ := longest_mem h
  exact matches_of_all _ hp cs n hmatch

/-- Nothing is found where no text of any kind stands. -/
theorem longest_eq_none_iff : longest cs = none ↔
    ∀ (kind : Kind) (found rest : List Char), cs = found ++ rest → ¬kind.Matches found := by
  constructor
  · rintro hnone kind found rest rfl hmatches
    obtain ⟨k, n, hlongest, -⟩ := hmatches.exists_longest rest
    rw [hnone] at hlongest
    cases hlongest
  · intro h
    by_contra hne
    obtain ⟨⟨kind, n⟩, hlongest⟩ := Option.ne_none_iff_exists'.mp hne
    exact h kind (cs.take n) (cs.drop n) (List.take_append_drop n cs).symm
      (matches_of_longest hlongest)

/-- The other kinds of lexemes that may start with the same character. -/
def Kind.rivals : Kind → List Kind
  | .colon => [.column]
  | .column => [.colon]
  | .bool => [.identifier]
  | .identifier => [.bool]
  | .number => [.unitLiteral]
  | .unitLiteral => [.number]
  | _ => []

theorem opensOnly_rivals {c : Char} (h : opens kind c = true) : OpensOnly c (kind :: kind.rivals) := by
  have hsign : ∀ e, c = e → (∀ k, opens k e = true → k ∈ kind :: kind.rivals) →
      OpensOnly c (kind :: kind.rivals) := by
    rintro e rfl honly
    exact honly
  cases kind with
  | bool =>
      have hletter : c.isAlpha = true := h
      exact opensOnly_startsName (by rw [startsName, hletter, Bool.true_or])
  | identifier => exact (opensOnly_startsName h).swap
  | number =>
      rcases Bool.or_eq_true _ _ ▸ h with hdigit | hminus
      · exact opensOnly_isDigit hdigit
      · intro k hk
        rw [beq_iff_eq.mp hminus] at hk
        exact List.mem_cons.mpr (.inl (List.mem_singleton.mp (opensOnly_minus k hk)))
  | unitLiteral => exact (opensOnly_isDigit h).swap
  | string =>
      rcases Block.isQuote_iff.mp h with hc | hc
      · exact hsign _ hc (by intro k; cases k <;> decide)
      · exact hsign _ hc (by intro k; cases k <;> decide)
  | _ => exact hsign _ (beq_iff_eq.mp h) (by intro k; cases k <;> decide)

theorem Kind.Matches.opens {c : Char} (h : kind.Matches (c :: rest)) : opens kind c = true := by
  obtain ⟨p, hp, hreaches⟩ := exists_reaches h
  obtain ⟨n, hn, -⟩ := hreaches []
  exact opens_of_match _ hp hn

theorem Kind.Matches.ne_nil (h : kind.Matches text) : text ≠ [] := by
  rintro rfl
  obtain ⟨p, hp, hreaches⟩ := exists_reaches h
  obtain ⟨n, hn, -⟩ := hreaches []
  have hbounds := all_bounded _ hp _ n hn
  exact absurd (Nat.lt_of_lt_of_le hbounds.1 hbounds.2) (Nat.lt_irrefl 0)

/-- A number has no letters, which a unit literal ends with. -/
theorem not_isUnitLiteral_of_isNumber (h : IsNumber text) : ¬IsUnitLiteral text := by
  rintro ⟨number, suffix, rfl, -, hsuffix⟩
  obtain ⟨c, letters, rfl⟩ := List.exists_cons_of_ne_nil hsuffix.nonempty
  have hletter := hsuffix.letters c List.mem_cons_self
  have hmem : c ∈ number ++ c :: letters := List.mem_append_right _ List.mem_cons_self
  have hdecimal : ∀ {cs : List Char}, IsDecimal cs → c ∉ cs := by
    intro cs hcs hc
    have hpart : isDecimalPart c = true := by
      rcases hcs.mem hc with hdigit | rfl
      · rw [isDecimalPart, hdigit, Bool.true_or]
      · rfl
    rw [isDecimalPart_of_isAlpha hletter] at hpart
    cases hpart
  generalize number ++ c :: letters = whole at h hmem
  cases h with
  | plain h => exact hdecimal h hmem
  | negative h =>
      rcases List.mem_cons.mp hmem with rfl | hmem
      · exact absurd hletter (by decide)
      · exact hdecimal h hmem

/-- A text of two kinds is a word for a boolean, which is a name as well. -/
theorem Kind.Matches.eq_or (h : kind.Matches text) (h' : k.Matches text) :
    k = kind ∨ (kind = .bool ∨ k = .bool) := by
  obtain ⟨c, rest, rfl⟩ := List.exists_cons_of_ne_nil h.ne_nil
  rcases List.mem_cons.mp (opensOnly_rivals h.opens k h'.opens) with heq | hrival
  · exact .inl heq
  cases kind with
  | bool => exact .inr (.inl rfl)
  | identifier => exact .inr (.inr (List.mem_singleton.mp hrival))
  | colon =>
      obtain rfl := List.mem_singleton.mp hrival
      obtain ⟨first, more, -, -, heq⟩ := h'
      cases h.symm.trans heq
  | column =>
      obtain rfl := List.mem_singleton.mp hrival
      obtain ⟨first, more, -, -, heq⟩ := h
      cases h'.symm.trans heq
  | number =>
      obtain rfl := List.mem_singleton.mp hrival
      exact (not_isUnitLiteral_of_isNumber h h').elim
  | unitLiteral =>
      obtain rfl := List.mem_singleton.mp hrival
      exact (not_isUnitLiteral_of_isNumber h' h).elim
  | _ => cases hrival

/-- The text is the longest of any kind in front of the rest, and it is a boolean if it can be. -/
structure IsLongest (kind : Kind) (text rest : List Char) : Prop where
  found : kind.Matches text
  longest : ∀ (k : Kind) (found more : List Char), text ++ rest = found ++ more → k.Matches found →
    found.length ≤ text.length
  bool : kind = .bool ↔ Kind.bool.Matches text

theorem isLongest_of_longest (h : longest cs = some (kind, n)) :
    IsLongest kind (cs.take n) (cs.drop n) := by
  have hlength : (cs.take n).length = n := by
    rw [List.length_take, Nat.min_eq_left (longest_bounds h).2]
  refine ⟨matches_of_longest h, ?_, ?_, ?_⟩
  · intro k found more heq hmatches
    obtain ⟨k', m, hm, hle⟩ := hmatches.exists_longest more
    rw [← heq, List.take_append_drop, h] at hm
    obtain ⟨-, rfl⟩ := Prod.mk.inj (Option.some.inj hm)
    rwa [hlength]
  · rintro rfl
    exact matches_of_longest h
  · rintro ⟨b, hb⟩
    obtain ⟨c, tail, rfl⟩ : ∃ c tail, cs = c :: tail := by
      apply List.exists_cons_of_ne_nil
      rintro rfl
      cases h
    have hword := Written.word_of_spells hb ((c :: tail).drop n)
    rw [List.take_append_drop, hlength] at hword
    have hbool := longest_word hword fun q hq m hm => by
      obtain ⟨k', m', hm', hle⟩ := Pattern.exists_longest hq hm
      rw [h] at hm'
      obtain ⟨-, rfl⟩ := Prod.mk.inj (Option.some.inj hm')
      exact hle
    rw [h] at hbool
    exact (Prod.mk.inj (Option.some.inj hbool)).1

/-- There is one longest text and one kind for it, and these are found. -/
theorem IsLongest.longest_eq (h : IsLongest kind text rest) :
    Pattern.longest (text ++ rest) = some (kind, text.length) := by
  obtain ⟨k, n, hlongest, hle⟩ := h.found.exists_longest rest
  have hn := (longest_bounds hlongest).2
  have hfound := isLongest_of_longest hlongest
  obtain rfl : n = text.length := by
    refine Nat.le_antisymm ?_ hle
    have hlength := h.longest k _ _ (List.take_append_drop n _).symm hfound.found
    rwa [List.length_take, Nat.min_eq_left hn] at hlength
  rw [List.take_left] at hfound
  have hkind : k = kind := by
    rcases h.found.eq_or hfound.found with heq | hbool | hbool
    · exact heq
    · rw [hbool]
      exact hfound.bool.mpr (h.bool.mp hbool)
    · rw [hbool]
      exact (h.bool.mpr (hfound.bool.mp hbool)).symm
  rw [hlongest, hkind]

end RowRecipe.Lexeme
