import RowRecipe.Proofs.Binary64.Equality
import RowRecipe.Proofs.SymbolTable.Rebuilding
import RowRecipe.Proofs.Token.Contents

/-!
Equality of numerals, tokens and groups by value. Whole numbers are compared exactly and everything else
as floating-point values, so two whole numbers that differ can both equal a third numeral, to which both
are rounded. Equality carries on through every numeral that no two whole numbers are rounded to, and
through the tokens and groups that hold only such numerals.
-/

namespace RowRecipe

namespace Numeral

variable {a b c : Numeral} {i : Int}

/-- A whole number is read as the value that it is rounded to, but for the sign of zero. -/
theorem equals_ofInt (h : a.signed64? = some i) : a.value.equals (Binary64.ofInt i) = true := by
  have hreads := a.reads
  obtain ⟨hlt, digits, n, hdigits, ⟨htext, rfl⟩ | ⟨htext, rfl⟩⟩ :=
    Text.exists_digits_of_signed64? h
  · have hround := Text.parse?_sign_natural true hdigits
    change Binary64.parse? ('-' :: digits) = _ at hround
    rw [htext, hround] at hreads
    rw [← Option.some.inj hreads]
    rcases Nat.eq_zero_or_pos n with rfl | hpos
    · have hzero : ∀ negative, Binary64.round negative (0 * Binary64.unitsPerOne) 1 =
          Binary64.zero negative :=
        fun negative => Binary64.round_of_lt negative (by rw [Nat.zero_mul]; decide)
      rw [Binary64.ofInt, Int.natAbs_neg, Int.natAbs_natCast, hzero, hzero]
      rfl
    · have hneg : decide (-(n : Int) < 0) = true := decide_eq_true (by omega)
      rw [Binary64.ofInt, hneg, Int.natAbs_neg, Int.natAbs_natCast]
      exact Binary64.equals_self (Binary64.round_ne_nan _ _ _)
  · have hunsigned := Text.unsigned64?_of_digits hdigits (by omega) htext
    rw [Text.parse?_of_unsigned64? hunsigned] at hreads
    rw [← Option.some.inj hreads]
    exact Binary64.equals_self (Binary64.round_ne_nan _ _ _)

theorem same_of_signed64? {i j : Int} (ha : a.signed64? = some i) (hb : b.signed64? = some j) :
    a.same b = (i == j) := by
  rw [same, ha, hb]

theorem same_of_none (h : a.signed64? = none ∨ b.signed64? = none) :
    a.same b = a.value.equals b.value := by
  rw [same]
  split
  · rename_i ha hb
    rcases h with h | h
    · rw [ha] at h
      cases h
    · rw [hb] at h
      cases h
  · rfl

/-- Equal numerals have equal values. -/
theorem equals_of_same (h : a.same b = true) : a.value.equals b.value = true := by
  rw [same] at h
  split at h
  · rename_i i j ha hb
    rw [← beq_iff_eq.mp h] at hb
    exact Binary64.equals_trans (equals_ofInt ha) (Binary64.equals_symm (equals_ofInt hb))
  · exact h

theorem same_refl (a : Numeral) : a.same a = true := by
  rw [same]
  split
  · rename_i i j hi hj
    rw [hi] at hj
    rw [Option.some.inj hj, beq_self_eq_true]
  · exact Binary64.equals_self a.value_ne_nan

theorem same_symm (h : a.same b = true) : b.same a = true := by
  rw [same] at h ⊢
  split at h
  · rename_i i j ha hb
    simp only [ha, hb]
    rw [beq_iff_eq.mp h, beq_self_eq_true]
  · rename_i hnot
    split
    · rename_i i j hb ha
      exact (hnot j i ha hb).elim
    · exact Binary64.equals_symm h

/-- The text writes a whole number of 64 bits with a sign, or its value is one that at most one of these
is rounded to. -/
def Sharp (b : Numeral) : Prop :=
  b.signed64? = none → ∀ i j : Int, -(2 ^ 63) ≤ i → i < 2 ^ 63 → -(2 ^ 63) ≤ j → j < 2 ^ 63 →
    (Binary64.ofInt i).equals b.value = true → (Binary64.ofInt j).equals b.value = true → i = j

theorem sharp_of_isSmall (h : b.value.IsSmall) : b.Sharp :=
  fun _ _ _ _ _ _ _ hi hj => Binary64.ofInt_inj h hi hj

theorem Sharp.trans (hb : b.Sharp) (h : a.same b = true) (h' : b.same c = true) :
    a.same c = true := by
  have hequals := Binary64.equals_trans (equals_of_same h) (equals_of_same h')
  cases ha : a.signed64? with
  | none => rwa [same_of_none (.inl ha)]
  | some i =>
      cases hc : c.signed64? with
      | none => rwa [same_of_none (.inr hc)]
      | some j =>
          rw [same_of_signed64? ha hc, beq_iff_eq]
          cases hbValue : b.signed64? with
          | some k =>
              rw [same_of_signed64? ha hbValue, beq_iff_eq] at h
              rw [same_of_signed64? hbValue hc, beq_iff_eq] at h'
              exact h.trans h'
          | none =>
              have hi := Binary64.equals_trans (Binary64.equals_symm (equals_ofInt ha)) (equals_of_same h)
              have hj := Binary64.equals_trans (Binary64.equals_symm (equals_ofInt hc))
                (Binary64.equals_symm (equals_of_same h'))
              obtain ⟨hia, hia'⟩ := signed64?_range ha
              obtain ⟨hjc, hjc'⟩ := signed64?_range hc
              exact hb hbValue i j hia hia' hjc hjc' hi hj

/-- The numeral that writes a whole number of 64 bits. -/
theorem exists_signed64? {i : Int} (hlow : -(2 ^ 63) ≤ i) (hhigh : i < 2 ^ 63) :
    ∃ n : Numeral, n.signed64? = some i ∧ n.value = Binary64.ofInt i := by
  have hfinite : (Json.Number.integer i).toBinary64.isFinite = true :=
    Binary64.isFinite_ofInt (by omega)
  refine ⟨ofNumber _ hfinite, signed64?_ofNumber_integer hlow hhigh hfinite, ?_⟩
  rw [value_ofNumber, Json.Number.toBinary64]

/-- Equality carries on through the sharp numerals and no others. -/
theorem sharp_iff :
    b.Sharp ↔ ∀ a c : Numeral, a.same b = true → b.same c = true → a.same c = true := by
  constructor
  · exact fun hb _ _ => hb.trans
  · intro htrans hb i j hi hi' hj hj' hequals hequals'
    obtain ⟨a, ha, haValue⟩ := exists_signed64? hi hi'
    obtain ⟨c, hc, hcValue⟩ := exists_signed64? hj hj'
    have hab : a.same b = true := by
      rw [same_of_none (.inr hb), haValue]
      exact hequals
    have hbc : b.same c = true := by
      rw [same_of_none (.inl hb), hcValue]
      exact Binary64.equals_symm hequals'
    have hac := htrans a c hab hbc
    rwa [same_of_signed64? ha hc, beq_iff_eq] at hac

end Numeral

theorem sameLists_iff {α : Type} {same : α → α → Bool} {as bs : List α} :
    sameLists same as bs = true ↔ List.Forall₂ (fun a b => same a b = true) as bs := by
  refine ⟨fun h => ?_, sameLists_of_forall₂⟩
  induction as generalizing bs with
  | nil =>
      cases bs with
      | nil => exact .nil
      | cons => cases h
  | cons a as ih =>
      cases bs with
      | nil => cases h
      | cons b bs =>
          rw [sameLists, Bool.and_eq_true] at h
          exact .cons h.1 (ih h.2)

/-- Equality of lists carries on through a list if that of the elements does through each of its own. -/
theorem sameLists_trans {α : Type} {same : α → α → Bool} {as bs cs : List α}
    (hbs : ∀ b ∈ bs, ∀ a c, same a b = true → same b c = true → same a c = true)
    (h : sameLists same as bs = true) (h' : sameLists same bs cs = true) :
    sameLists same as cs = true := by
  rw [sameLists_iff] at h h' ⊢
  have hmem := (List.forall₂_and_left bs cs).mpr ⟨fun _ hb => hb, h'⟩
  exact (Outcome.forall₂_comp h hmem).imp fun a c ⟨b, hab, hb, hbc⟩ => hbs b hb a c hab hbc

/-- Tokens of the kind are equal only if they are the same. -/
def TokenKind.isExact : TokenKind → Bool
  | .numeric | .numericList | .properties | .ranges | .byteSize | .timeDuration => false
  | _ => true

namespace Token

theorem sameEntries_iff {entries others : List (String × Token)} :
    sameEntries entries others = true ↔
      ∀ e ∈ entries, ∃ other, Entries.get? e.1 others = some other ∧ e.2.same other = true := by
  refine ⟨fun h => ?_, sameEntries_eq_true⟩
  induction entries with
  | nil => exact List.forall_mem_nil _
  | cons e rest ih =>
      rw [sameEntries, Bool.and_eq_true] at h
      refine List.forall_mem_cons.mpr ⟨?_, ih h.2⟩
      obtain ⟨hentry, -⟩ := h
      split at hentry
      · rename_i other hother
        exact ⟨other, hother, hentry⟩
      · cases hentry

/-- What equal tokens have in common: their kind, and contents that are equal for that kind. -/
inductive Alike : Token → Token → Prop
  | exact {token : Token} (h : token.kind.isExact = true) : Alike token token
  | numeric {a b : Numeral} (h : a.same b = true) : Alike (.numeric a) (.numeric b)
  | numericList {as bs : List Numeral} (h : sameLists Numeral.same as bs = true) :
      Alike (.numericList as) (.numericList bs)
  | properties {entries others : List (String × Token)} (hlength : entries.length = others.length)
      (h : ∀ e ∈ entries, ∃ other, Entries.get? e.1 others = some other ∧ e.2.same other = true) :
      Alike (.properties entries) (.properties others)
  | ranges {as bs : List NumericRange} (h : sameLists NumericRange.same as bs = true) :
      Alike (.ranges as) (.ranges bs)
  | byteSize {a b : ByteSize} (h : a.same b = true) : Alike (.byteSize a) (.byteSize b)
  | timeDuration {a b : TimeDuration} (h : a.same b = true) :
      Alike (.timeDuration a) (.timeDuration b)

theorem same_iff_alike {s t : Token} : s.same t = true ↔ Alike s t := by
  constructor
  · intro h
    fun_cases Token.same s t
    case case16 =>
      rw [same] at h
      · cases h
      all_goals assumption
    all_goals rw [same] at h
    case case7 => exact .numeric h
    case case8 => exact .numericList h
    case case11 =>
      rw [Bool.and_eq_true, beq_iff_eq, sameEntries_iff] at h
      exact .properties h.1 h.2
    case case12 => exact .ranges h
    case case14 => exact .byteSize h
    case case15 => exact .timeDuration h
    all_goals
      rw [beq_iff_eq.mp h]
      exact .exact rfl
  · intro h
    cases h with
    | exact h =>
        cases s with
        | numeric | numericList | properties | ranges | byteSize | timeDuration => cases h
        | _ => rw [same, beq_self_eq_true]
    | numeric h | numericList h | ranges h | byteSize h | timeDuration h => rwa [same]
    | properties hlength h =>
        rw [same, Bool.and_eq_true, beq_iff_eq]
        exact ⟨hlength, sameEntries_eq_true h⟩

/-- All numbers in the token are sharp. -/
def Sharp (token : Token) : Prop :=
  ∀ n ∈ token.numerals, n.Sharp

end Token

theorem NumericRange.same_trans {a b c : NumericRange} (hlow : b.low.Sharp) (hhigh : b.high.Sharp)
    (h : a.same b = true) (h' : b.same c = true) : a.same c = true := by
  simp only [same, Bool.and_eq_true, beq_iff_eq] at h h' ⊢
  obtain ⟨⟨hlowSame, hhighSame⟩, hlabel⟩ := h
  obtain ⟨⟨hlowSame', hhighSame'⟩, hlabel'⟩ := h'
  exact ⟨⟨hlow.trans hlowSame hlowSame', hhigh.trans hhighSame hhighSame'⟩, hlabel.trans hlabel'⟩

theorem Quantity.same_trans {U : Type} [DecidableEq U] {a b c : Quantity U} (h : a.same b = true)
    (h' : b.same c = true) : a.same c = true := by
  simp only [same, Bool.and_eq_true, beq_iff_eq] at h h' ⊢
  obtain ⟨⟨htext, hvalue⟩, hunit⟩ := h
  obtain ⟨⟨htext', hvalue'⟩, hunit'⟩ := h'
  exact ⟨⟨htext.trans htext', Binary64.equals_trans hvalue hvalue'⟩, hunit.trans hunit'⟩

/-- Equality carries on through a token that holds sharp numbers only, however deep in properties they
are. -/
theorem Token.Sharp.trans {s t u : Token} (ht : t.Sharp) (h : s.same t = true)
    (h' : t.same u = true) : s.same u = true := by
  rw [same_iff_alike] at h h' ⊢
  induction t using Token.induction_properties generalizing s u with
  | single t hkind =>
      rw [Sharp, numerals_of_kind hkind] at ht
      cases h with
      | exact => exact h'
      | properties => exact (hkind rfl).elim
      | numeric h =>
          cases h' with
          | exact hexact => cases hexact
          | numeric h' => exact .numeric ((ht _ List.mem_cons_self).trans h h')
      | numericList h =>
          cases h' with
          | exact hexact => cases hexact
          | numericList h' =>
              exact .numericList (sameLists_trans (fun b hb _ _ => (ht b hb).trans) h h')
      | ranges h =>
          cases h' with
          | exact hexact => cases hexact
          | ranges h' =>
              refine .ranges (sameLists_trans (fun b hb _ _ => ?_) h h')
              have hbounds : ∀ n ∈ [b.low, b.high], n.Sharp :=
                fun n hn => ht n (List.mem_flatMap.mpr ⟨b, hb, hn⟩)
              exact NumericRange.same_trans (hbounds _ (by simp)) (hbounds _ (by simp))
      | byteSize h =>
          cases h' with
          | exact hexact => cases hexact
          | byteSize h' => exact .byteSize (Quantity.same_trans h h')
      | timeDuration h =>
          cases h' with
          | exact hexact => cases hexact
          | timeDuration h' => exact .timeDuration (Quantity.same_trans h h')
  | properties entries ih =>
      cases h with
      | exact hexact => cases hexact
      | properties hlength h =>
          cases h' with
          | exact hexact => cases hexact
          | properties hlength' h' =>
              refine .properties (hlength.trans hlength') fun e he => ?_
              obtain ⟨middle, hmiddle, hsame⟩ := h e he
              have hmem := Entries.mem_of_get? hmiddle
              obtain ⟨other, hother, hsame'⟩ := h' _ hmem
              refine ⟨other, hother, ?_⟩
              rw [same_iff_alike] at hsame hsame' ⊢
              exact ih _ hmem (fun n hn => ht n (mem_numerals_properties.mpr ⟨_, hmem, hn⟩)) hsame hsame'

theorem TokenGroup.same_trans {a b c : TokenGroup} (hb : ∀ token ∈ b.tokens, token.Sharp)
    (h : a.same b = true) (h' : b.same c = true) : a.same c = true := by
  simp only [same, Bool.and_eq_true, beq_iff_eq] at h h' ⊢
  exact ⟨h.1.trans h'.1, sameLists_trans (fun t ht _ _ => (hb t ht).trans) h.2 h'.2⟩

/-- Numerals equal themselves, and their equality is symmetric. It carries on through a numeral exactly
if this writes a whole number of 64 bits or is one that at most one of these is rounded to, like all
that are less than 2^53 in either direction. Tokens and groups that only hold such numerals carry on
equality as well. -/
theorem same_laws (b : Numeral) (t : Token) (y : TokenGroup) :
    b.same b = true ∧
    (∀ a : Numeral, a.same b = true → b.same a = true) ∧
    (b.Sharp ↔ ∀ a c : Numeral, a.same b = true → b.same c = true → a.same c = true) ∧
    (b.value.IsSmall → b.Sharp) ∧
    (t.Sharp → ∀ s u : Token, s.same t = true → t.same u = true → s.same u = true) ∧
    ((∀ token ∈ y.tokens, token.Sharp) →
      ∀ x z : TokenGroup, x.same y = true → y.same z = true → x.same z = true) :=
  ⟨b.same_refl, fun _ => Numeral.same_symm, Numeral.sharp_iff, Numeral.sharp_of_isSmall,
    fun ht _ _ => ht.trans, fun hy _ _ => TokenGroup.same_trans hy⟩

/-- Three ways to write one, and groups with a property that is one. -/
theorem same_laws_one :
    ∃ a b c : Numeral, Numeral.parse? "1" = some a ∧ Numeral.parse? "1.0" = some b ∧
      Numeral.parse? "1e0" = some c ∧ b.same a = true ∧ a.same c = true ∧
      TokenGroup.same ⟨[.directiveName "x", .properties [("n", .numeric a)]], ⟨1, 0, 1, 10, "x prop:n=1"⟩⟩
        ⟨[.directiveName "x", .properties [("n", .numeric c)]], ⟨1, 0, 1, 10, "x prop:n=1"⟩⟩ = true := by
  let a : Numeral := ⟨"1", .ofInt 1, by decide +kernel, by decide +kernel⟩
  let b : Numeral := ⟨"1.0", .ofInt 1, by decide +kernel, by decide +kernel⟩
  let c : Numeral := ⟨"1e0", .ofInt 1, by decide +kernel, by decide +kernel⟩
  let token : Token := .properties [("n", .numeric b)]
  let group : TokenGroup := ⟨[.directiveName "x", token], ⟨1, 0, 1, 10, "x prop:n=1"⟩⟩
  obtain ⟨-, hsymm, hsharp, hsmall, -, hgroups⟩ := same_laws b token group
  have hab : a.same b = true := by decide +kernel
  have hbc : b.same c = true := by decide +kernel
  have hb : b.Sharp := by
    apply hsmall
    simp only [b]
    exact Binary64.isSmall_ofInt (by decide)
  refine ⟨a, b, c, a.parse?_text, b.parse?_text, c.parse?_text, hsymm a hab,
    hsharp.mp hb a c hab hbc, ?_⟩
  refine hgroups ?_ _ _ (by decide +kernel) (by decide +kernel)
  intro token htoken n hn
  rcases List.mem_pair.mp htoken with rfl | rfl
  · cases hn
  · obtain rfl := List.mem_singleton.mp hn
    exact hb

/-- Two whole numbers that differ are both rounded to 2^53, so both equal the numeral that writes it
with a point. -/
theorem same_not_transitive :
    ∃ a b c : Numeral, Numeral.parse? "9007199254740993" = some a ∧
      Numeral.parse? "9007199254740992.0" = some b ∧ Numeral.parse? "9007199254740992" = some c ∧
      a.same b = true ∧ b.same c = true ∧ a.same c = false := by
  let value : Binary64 := .ofInt (2 ^ 53)
  let a : Numeral := ⟨"9007199254740993", value, by decide +kernel, by decide +kernel⟩
  let b : Numeral := ⟨"9007199254740992.0", value, by decide +kernel, by decide +kernel⟩
  let c : Numeral := ⟨"9007199254740992", value, by decide +kernel, by decide +kernel⟩
  refine ⟨a, b, c, a.parse?_text, b.parse?_text, c.parse?_text, ?_, ?_, ?_⟩
  · decide +kernel
  · decide +kernel
  · decide +kernel

end RowRecipe
