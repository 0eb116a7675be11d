import RowRecipe.Proofs.Lexeme.Shapes
import RowRecipe.Token.Basic

/-!
Which pattern wins. Only a few patterns can match where a text starts with a given character, so a
match is the longest one as soon as it is longer than those of its few rivals.
-/

namespace RowRecipe.Lexeme

namespace Pattern

section Longest

variable {cs : List Char} {n : Nat} {patterns : List (Kind × Pattern)}

theorem foldl_longer_lt (h : ∀ q ∈ patterns, ∀ m, q.2 cs = some m → m < n) :
    ∀ best : Option (Kind × Nat), (∀ b ∈ best, b.2 < n) →
      ∀ b ∈ patterns.foldl (fun best q => longer best q.1 (q.2 cs)) best, b.2 < n := by
  induction patterns with
  | nil =>
      intro best hbest
      exact hbest
  | cons q rest ih =>
      intro best hbest
      obtain ⟨hq, hrest⟩ := List.forall_mem_cons.mp h
      apply ih hrest
      intro b hb
      change b ∈ longer best q.1 (q.2 cs) at hb
      cases hmatch : q.2 cs with
      | none =>
          rw [hmatch] at hb
          exact hbest b hb
      | some m =>
          have hm := hq m hmatch
          rw [hmatch] at hb
          cases best with
          | none =>
              obtain rfl := Option.some.inj hb
              exact hm
          | some found =>
              simp only [longer] at hb
              split at hb
              · obtain rfl := Option.some.inj hb
                exact hm
              · exact hbest b hb

theorem foldl_longer_eq {kind : Kind} (h : ∀ q ∈ patterns, ∀ m, q.2 cs = some m → m ≤ n) :
    patterns.foldl (fun best q => longer best q.1 (q.2 cs)) (some (kind, n)) = some (kind, n) := by
  induction patterns with
  | nil => rfl
  | cons q rest ih =>
      obtain ⟨hq, hrest⟩ := List.forall_mem_cons.mp h
      have hlonger : longer (some (kind, n)) q.1 (q.2 cs) = some (kind, n) := by
        cases hmatch : q.2 cs with
        | none => rfl
        | some m => simp only [longer, if_neg (Nat.not_lt.mpr (hq m hmatch))]
      rw [List.foldl_cons, hlonger]
      exact ih hrest

/-- A match wins if those of the patterns before it are shorter and those after it are no longer. -/
theorem longest_eq {kind : Kind} {p : Pattern} (before after : List (Kind × Pattern))
    (hall : all = before ++ (kind, p) :: after) (hmatch : p cs = some n)
    (hbefore : ∀ q ∈ before, ∀ m, q.2 cs = some m → m < n)
    (hafter : ∀ q ∈ after, ∀ m, q.2 cs = some m → m ≤ n) : longest cs = some (kind, n) := by
  rw [longest, hall, List.foldl_append, List.foldl_cons]
  have hlt := foldl_longer_lt hbefore none (by simp)
  generalize before.foldl (fun best q => longer best q.1 (q.2 cs)) none = best at hlt
  have hlonger : longer best kind (p cs) = some (kind, n) := by
    rw [hmatch]
    cases best with
    | none => rfl
    | some found => simp only [longer, if_pos (hlt found rfl)]
  rw [hlonger]
  exact foldl_longer_eq hafter

end Longest

/-- Lexemes of the kind may start with the character. -/
def opens : Kind → Char → Bool
  | .newline, c => c == '\n'
  | .pragma, c => c == '#'
  | .semicolon, c => c == ';'
  | .comma, c => c == ','
  | .colon, c => c == ':'
  | .equals, c => c == '='
  | .bang, c => c == '!'
  | .bool, c => c.isAlpha
  | .column, c => c == ':'
  | .string, c => Block.isQuote c
  | .number, c => c.isDigit || c == '-'
  | .unitLiteral, c => c.isDigit
  | .identifier, c => startsName c
  | .block, c => c == '{'

section Opening

variable {c : Char} {rest : List Char} {n : Nat}

theorem head_of_literal {e : Char} {more : List Char} (h : literal (e :: more) (c :: rest) = some n) :
    c = e := by
  simp only [literal] at h
  split at h
  · rename_i hprefix
    exact (List.cons_prefix_cons.mp (List.isPrefixOf_iff_prefix.mp hprefix)).1.symm
  · cases h

theorem isAlpha_boolName (b : Bool) : ∀ e ∈ (boolName b).toList, e.toLower.isAlpha = true := by
  cases b <;> simp [boolName]

theorem word_eq_some {expected cs : List Char} (h : word expected cs = some n) :
    n = expected.length ∧ Text.sameIgnoringCase expected (cs.take n) = true := by
  simp only [word] at h
  split at h
  · rename_i hsame
    obtain rfl := Option.some.inj h
    exact ⟨rfl, hsame⟩
  · cases h

theorem head_of_word {b : Bool} (h : word (boolName b).toList (c :: rest) = some n) :
    c.isAlpha = true := by
  obtain ⟨rfl, hsame⟩ := word_eq_some h
  refine Text.isAlpha_of_sameIgnoringCase (isAlpha_boolName b) hsame c ?_
  cases b <;> exact List.mem_cons_self

theorem head_of_unsignedNumber (h : unsignedNumber (c :: rest) = some n) : c.isDigit = true := by
  by_contra hc
  have hwhole : ((c :: rest).takeWhile Char.isDigit).length = 0 := by
    rw [List.takeWhile_cons_of_neg hc, List.length_nil]
  simp only [unsignedNumber, if_pos hwhole] at h
  cases h

/-- Without a sign in front of it, a number is an unsigned one. -/
theorem number_of_isDigit (h : c.isDigit = true) (rest : List Char) :
    number (c :: rest) = unsignedNumber (c :: rest) := by
  unfold number
  split
  · rename_i heq
    rw [(List.cons.inj heq).1] at h
    cases h
  · rfl

theorem opens_of_match : ∀ q ∈ all, q.2 (c :: rest) = some n → opens q.1 c = true := by
  have hsign : ∀ {e : Char} {more : List Char}, literal (e :: more) (c :: rest) = some n →
      (c == e) = true := fun h => beq_iff_eq.mpr (head_of_literal h)
  have hcolumn : column (c :: rest) = some n → (c == ':') = true := by
    intro h
    unfold column at h
    split at h
    · rename_i heq
      rw [(List.cons.inj heq).1]
      rfl
    · cases h
  have hstring : string (c :: rest) = some n → Block.isQuote c = true := by
    intro h
    simp only [string] at h
    split at h
    · assumption
    · cases h
  have hnumber : number (c :: rest) = some n → (c.isDigit || c == '-') = true := by
    intro h
    unfold number at h
    split at h
    · rename_i heq
      rw [(List.cons.inj heq).1]
      rfl
    · rw [head_of_unsignedNumber h, Bool.true_or]
  have hunit : unitLiteral (c :: rest) = some n → c.isDigit = true := by
    intro h
    simp only [unitLiteral] at h
    split at h
    · cases h
    · rename_i m hm
      exact head_of_unsignedNumber hm
  have hname : identifier (c :: rest) = some n → startsName c = true := by
    intro h
    simp only [identifier, name] at h
    split at h
    · assumption
    · cases h
  have hblock : block (c :: rest) = some n → (c == '{') = true := by
    intro h
    obtain ⟨inner, m, heq, -⟩ := Block.eq_cons_of_length? h
    rw [(List.cons.inj heq).1]
    rfl
  simp only [all, List.forall_mem_cons]
  exact ⟨hsign, hsign, hsign, hsign, hsign, hsign, hsign, head_of_word (b := true),
    head_of_word (b := false), hcolumn, hstring, hnumber, hunit, hname, hblock,
    List.forall_mem_nil _⟩

/-- The kinds that open with a character are among the given ones. -/
def OpensOnly (c : Char) (kinds : List Kind) : Prop :=
  ∀ kind, opens kind c = true → kind ∈ kinds

theorem OpensOnly.swap {a b : Kind} (h : OpensOnly c [a, b]) : OpensOnly c [b, a] := by
  intro kind hkind
  exact List.mem_pair.mpr (List.mem_pair.mp (h kind hkind)).symm

theorem opensOnly_startsName (h : startsName c = true) : OpensOnly c [.bool, .identifier] := by
  have hne : ∀ e : Char, startsName e = false → c ≠ e := by
    rintro e he rfl
    rw [h] at he
    cases he
  have hdigit : c.isDigit = false := by
    rcases Bool.or_eq_true _ _ ▸ h with hletter | hunderscore
    · exact Text.isDigit_eq_false_of_isAlpha hletter
    · rw [beq_iff_eq.mp hunderscore]
      decide
  intro kind hkind
  cases kind with
  | bool => decide
  | identifier => decide
  | string =>
      rcases Block.isQuote_iff.mp hkind with hc | hc
      · exact absurd hc (hne _ (by decide))
      · exact absurd hc (hne _ (by decide))
  | number =>
      rw [opens, hdigit, Bool.false_or, beq_iff_eq] at hkind
      exact absurd hkind (hne _ (by decide))
  | unitLiteral =>
      rw [opens, hdigit] at hkind
      cases hkind
  | _ => exact absurd (beq_iff_eq.mp hkind) (hne _ (by decide))

theorem opensOnly_isDigit (h : c.isDigit = true) : OpensOnly c [.number, .unitLiteral] := by
  have hrange := Text.toNat_of_isDigit h
  have hne : ∀ e : Char, e.isDigit = false → c ≠ e := by
    rintro e he rfl
    rw [h] at he
    cases he
  have hletter : c.isAlpha = false := by
    by_contra hletter
    rw [Text.isDigit_eq_false_of_isAlpha (by simpa using hletter)] at h
    cases h
  intro kind hkind
  cases kind with
  | number => decide
  | unitLiteral => decide
  | bool =>
      rw [opens, hletter] at hkind
      cases hkind
  | identifier =>
      rw [opens, startsName, hletter, Bool.false_or, beq_iff_eq] at hkind
      exact absurd hkind (hne _ (by decide))
  | string =>
      rcases Block.isQuote_iff.mp hkind with hc | hc
      · exact absurd hc (hne _ (by decide))
      · exact absurd hc (hne _ (by decide))
  | _ => exact absurd (beq_iff_eq.mp hkind) (hne _ (by decide))

theorem opensOnly_minus : OpensOnly '-' [.number] := by
  intro kind hkind
  revert hkind
  cases kind <;> decide

theorem opensOnly_colon : OpensOnly ':' [.colon, .column] := by
  intro kind hkind
  revert hkind
  cases kind <;> decide

/-- A match wins if the kinds that may start there as well, its rivals, only have shorter ones. -/
theorem longest_of_rivals {kind : Kind} {p : Pattern} {rivals : List Kind}
    (honly : OpensOnly c (kind :: rivals)) (hmem : (kind, p) ∈ all)
    (hunique : ∀ q, (kind, q) ∈ all → q = p) (hmatch : p (c :: rest) = some n)
    (hrivals : ∀ k ∈ rivals, ∀ q, (k, q) ∈ all → ∀ m, q (c :: rest) = some m → m < n) :
    longest (c :: rest) = some (kind, n) := by
  obtain ⟨before, after, hall, hfirst⟩ := List.eq_append_cons_of_mem hmem
  have hkinds : ∀ k q m, (k, q) ∈ all → q (c :: rest) = some m → (k, q) = (kind, p) ∨ m < n := by
    intro k q m hq hm
    rcases List.mem_cons.mp (honly k (opens_of_match _ hq hm)) with rfl | hrival
    · rw [hunique q hq]
      exact .inl rfl
    · exact .inr (hrivals k hrival q hq m hm)
  refine longest_eq before after hall hmatch ?_ ?_
  · rintro ⟨k, q⟩ hq m hm
    rcases hkinds k q m (by rw [hall]; exact List.mem_append_left _ hq) hm with heq | hlt
    · rw [heq] at hq
      exact absurd hq hfirst
    · exact hlt
  · rintro ⟨k, q⟩ hq m hm
    rcases hkinds k q m (by rw [hall]; exact List.mem_append_right _ (.tail _ hq)) hm with heq | hlt
    · obtain ⟨-, rfl⟩ := Prod.mk.inj heq
      exact Nat.le_of_eq (Option.some.inj (hm.symm.trans hmatch))
    · exact Nat.le_of_lt hlt

/-- Where a lexeme starts, nothing is passed over. -/
theorem skip?_of_longest {found : Kind × Nat} (h : longest (c :: rest) = some found) :
    skip? (c :: rest) = none := by
  obtain ⟨kind, n⟩ := found
  obtain ⟨p, hmem, hmatch⟩ := longest_mem h
  have hopens : opens kind c = true := opens_of_match _ hmem hmatch
  have hne : ∀ e : Char, (∀ kind, opens kind e = false) → c ≠ e := by
    rintro e he rfl
    rw [he kind] at hopens
    cases hopens
  have hslash : c ≠ '/' := hne _ (by intro kind; cases kind <;> decide)
  have hskipped : isSkipped c = false := by
    rw [isSkipped, Bool.or_eq_false_iff, Bool.or_eq_false_iff, Bool.or_eq_false_iff]
    simp only [beq_eq_false_iff_ne]
    refine ⟨⟨⟨hne _ ?_, hne _ ?_⟩, hne _ ?_⟩, ?_⟩
    · intro kind
      cases kind <;> decide
    · intro kind
      cases kind <;> decide
    · intro kind
      cases kind <;> decide
    · intro hfeed
      refine hne (Char.ofNat 12) ?_ (by rw [← hfeed, Char.ofNat_toNat])
      intro kind
      cases kind <;> decide
  unfold skip?
  split
  · rename_i heq
    exact absurd (List.cons.inj heq).1 hslash
  · rename_i heq
    rw [← (List.cons.inj heq).1, hskipped]
    rfl
  · rfl

end Opening

end Pattern

end RowRecipe.Lexeme
