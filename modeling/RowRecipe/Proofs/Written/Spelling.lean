import RowRecipe.Proofs.Lexeme.Blocks
import RowRecipe.Proofs.Written.Meaning

/-!
Every word of a written recipe is one lexeme. In front of a text that stands apart from it, the
longest match at the word is the word itself, as the kind it was meant to be.
-/

namespace RowRecipe.Written

open Lexeme Pattern

variable {rest : List Char}

theorem word_of_spells {cs : List Char} {b : Bool}
    (h : Text.sameIgnoringCase (boolName b).toList cs = true) (rest : List Char) :
    word (boolName b).toList (cs ++ rest) = some cs.length := by
  have hlength : cs.length = (boolName b).toList.length := by
    have := congrArg List.length (beq_iff_eq.mp h)
    rw [List.length_map, List.length_map] at this
    exact this.symm
  simp only [word, ← hlength, List.take_left, if_pos h]

theorem Name.longest (n : Name) (hrest : Apart rest) :
    longest (n.text ++ rest) = some (.identifier, n.text.length) := by
  have hmatch := identifier_append n.starts n.continues hrest
  refine longest_of_rivals (opensOnly_startsName n.starts).swap (by simp [all])
    (fun q hq => by simpa [all] using hq) hmatch ?_
  intro k hk p hp m hm
  obtain rfl := List.mem_singleton.mp hk
  obtain ⟨b, rfl⟩ := eq_word_of_bool hp
  change word (boolName b).toList (n.text ++ rest) = some m at hm
  refine lt_of_le_of_ne (word_length_le hrest hm) ?_
  rintro rfl
  -- a match that takes the whole name would make it a word for a boolean
  obtain ⟨-, hsame⟩ := word_eq_some hm
  rw [List.take_left] at hsame
  have hnot := n.notBool b
  rw [← Name.text, hsame] at hnot
  cases hnot

/-- A boolean is also as long a match as a name, but names come later. -/
theorem Boolean.longest (b : Boolean) (hrest : Apart rest) :
    longest (b.text ++ rest) = some (.bool, b.text.length) := by
  have hletters := Text.isAlpha_of_sameIgnoringCase (isAlpha_boolName b.value) b.spells
  have hmatch := word_of_spells b.spells rest
  obtain ⟨c, more, htext⟩ : ∃ c more, b.text = c :: more := by
    apply List.exists_cons_of_ne_nil
    intro hnil
    have hbound := (word_bounded (by cases b.value <;> decide) _ _ hmatch).1
    rw [hnil] at hbound
    exact Nat.lt_irrefl 0 hbound
  have hc : startsName c = true := by
    rw [startsName, hletters c (by rw [htext]; exact List.mem_cons_self)]
    rfl
  have hname : identifier (b.text ++ rest) = some b.text.length := by
    rw [htext]
    refine identifier_append hc (fun d hd => ?_) hrest
    exact continuesName_of_isAlpha (hletters d (by rw [htext]; exact List.mem_cons_of_mem c hd))
  rw [htext, List.cons_append] at hmatch hname ⊢
  refine longest_word hmatch ?_
  rintro ⟨kind, p⟩ hq m hm
  rcases List.mem_pair.mp (opensOnly_startsName hc _ (opens_of_match _ hq hm)) with rfl | rfl
  · obtain ⟨b', rfl⟩ := eq_word_of_bool hq
    rw [← List.cons_append] at hm
    exact word_length_le hrest hm
  · obtain rfl : p = identifier := by simpa [all] using hq
    exact Nat.le_of_eq (Option.some.inj (hm.symm.trans hname))

theorem Column.longest (c : Column) (hrest : Apart rest) :
    longest (c.text ++ rest) = some (.column, c.text.length) := by
  have hmatch : column (c.text ++ rest) = some c.text.length := by
    have hname : Pattern.name startsColumn continuesColumn (c.first :: (c.more ++ rest)) =
        some (1 + c.more.length) := by
      rw [Pattern.name, if_pos c.starts, Text.takeWhile_append_of_stopsAt c.continues hrest]
    simp only [Column.text, List.cons_append, column, hname, Option.map_some, List.length_cons]
    rw [Nat.add_comm 1]
  refine longest_of_rivals opensOnly_colon.swap (by simp [all])
    (fun q hq => by simpa [all] using hq) hmatch ?_
  intro k hk p hp m hm
  obtain rfl := List.mem_singleton.mp hk
  obtain rfl : p = literal [':'] := by simpa [all] using hp
  have hone : literal [':'] (c.text ++ rest) = some 1 := rfl
  obtain rfl := Option.some.inj (hone.symm.trans hm)
  simp [Column.text]

theorem quotedRest_payload {quote : Char} {payload : List Char} (h : Payload quote payload)
    (hquote : quote ≠ '\\') (rest : List Char) :
    quotedRest quote (payload ++ quote :: rest) = some (payload.length + 1) := by
  induction h with
  | nil => simp [quotedRest]
  | plain hne hbackslash _ ih => simp [quotedRest, hne, ih]
  | pair hnewline _ ih => simp [quotedRest, hnewline, ih]

theorem Quoted.quote_ne_backslash (q : Quoted) : q.quote ≠ '\\' :=
  Block.quote_ne_backslash q.isQuote

theorem Quoted.longest (q : Quoted) (rest : List Char) :
    longest (q.text ++ rest) = some (.string, q.text.length) := by
  have hrest := quotedRest_payload q.protects q.quote_ne_backslash rest
  simp only [Quoted.text, List.cons_append, List.append_assoc]
  rw [longest_of_isQuote q.isQuote, string, if_pos q.isQuote, List.nil_append, hrest]
  simp

theorem Body.longest (b : Body) (rest : List Char) :
    longest ('{' :: (b.text ++ ['}']) ++ rest) = some (.block, b.text.length + 2) := by
  have hscan := Block.scan_append _ _ rest _ b.closes
  rw [List.cons_append, longest_of_brace, block, Block.length?, hscan]
  rfl

theorem Label.longest (label : Label) (hrest : Apart rest) :
    longest (label.written ++ rest) = some (label.rule.1, label.written.length) := by
  cases label with
  | number text shape => exact longest_number shape hrest
  | quoted q => exact q.longest rest

theorem Key.longest (key : Key) (hrest : Apart rest) :
    longest (key.written ++ rest) = some (key.rule.1, key.written.length) := by
  cases key with
  | name n => exact n.longest hrest
  | quoted q => exact q.longest rest

theorem Value.longest (v : Value) (hrest : Apart rest) :
    longest (v.written ++ rest) = some (v.rule.1, v.written.length) := by
  cases v with
  | number n => exact longest_number n.shape hrest
  | boolean b => exact b.longest hrest
  | quoted q => exact q.longest rest
  | name n => exact n.longest hrest

/-- The text opens and closes no brace: a block goes on behind it as it did in front. -/
def Neutral (text : List Char) : Prop :=
  ∀ more, Block.scan ⟨1, none⟩ (text ++ more) = (Block.scan ⟨1, none⟩ more).map (· + text.length)

theorem neutral_of_balanced {text : List Char} (h : Block.Balanced text) : Neutral text :=
  Block.scan_balanced h 0

theorem neutral_nil : Neutral [] := neutral_of_balanced .nil

theorem Neutral.append {text other : List Char} (h : Neutral text) (hother : Neutral other) :
    Neutral (text ++ other) := by
  intro more
  rw [List.append_assoc, h, hother, Option.map_map, List.length_append]
  congr 1
  funext n
  simp only [Function.comp_apply]
  omega

theorem neutral_char {c : Char} (hquote : Block.isQuote c = false) (hopen : c ≠ '{')
    (hclose : c ≠ '}') : Neutral [c] :=
  neutral_of_balanced (.plain hquote hopen hclose .nil)

theorem neutral_of_forall {text : List Char} (h : ∀ c ∈ text, continuesColumn c = true) :
    Neutral text := by
  induction text with
  | nil => exact neutral_nil
  | cons c rest ih =>
      obtain ⟨hc, hrest⟩ := List.forall_mem_cons.mp h
      have hne : ∀ e : Char, continuesColumn e = false → c ≠ e := by
        rintro e he rfl
        rw [hc] at he
        cases he
      have hquote : Block.isQuote c = false := by
        rw [Block.isQuote, Bool.or_eq_false_iff, beq_eq_false_iff_ne, beq_eq_false_iff_ne]
        exact ⟨hne _ (by decide), hne _ (by decide)⟩
      exact (neutral_char hquote (hne _ (by decide)) (hne _ (by decide))).append (ih hrest)

theorem Payload.isSection {quote : Char} {payload : List Char} (h : Payload quote payload) :
    Block.Section quote payload := by
  induction h with
  | nil => exact .nil
  | plain hquote hbackslash _ ih => exact .plain hquote hbackslash ih
  | pair _ _ ih => exact .pair _ ih

/-- Inside of quotes a block sees no braces. -/
theorem Quoted.neutral (q : Quoted) : Neutral q.text :=
  neutral_of_balanced (.quoted q.isQuote q.protects.isSection .nil)

theorem neutral_of_isNumber {text : List Char} (h : IsNumber text) : Neutral text := by
  have hdecimal : ∀ {cs : List Char}, IsDecimal cs → ∀ c ∈ cs, continuesColumn c = true := by
    intro cs hcs c hc
    rcases hcs.mem hc with hdigit | rfl
    · exact continuesColumn_of_continuesName (continuesName_of_isDigit hdigit)
    · decide
  cases h with
  | plain h => exact neutral_of_forall (hdecimal h)
  | negative h =>
      exact neutral_of_forall (List.forall_mem_cons.mpr ⟨by decide, hdecimal h⟩)

theorem Name.neutral (n : Name) : Neutral n.text :=
  neutral_of_forall fun c hc => continuesColumn_of_continuesName (n.isName.continuesName c hc)

theorem Property.neutral (p : Property) : Neutral p.text := by
  have hkey : Neutral p.key.written := by
    cases p.key with
    | name n => exact n.neutral
    | quoted q => exact q.neutral
  have hvalue : Neutral p.value.written := by
    cases p.value with
    | number n => exact neutral_of_isNumber n.shape
    | boolean b =>
        refine neutral_of_forall fun c hc => ?_
        have hletter := Text.isAlpha_of_sameIgnoringCase (isAlpha_boolName b.value) b.spells c hc
        exact continuesColumn_of_continuesName (continuesName_of_isAlpha hletter)
    | quoted q => exact q.neutral
    | name n => exact n.neutral
  exact hkey.append ((neutral_char (by decide) (by decide) (by decide)).append hvalue)

theorem neutral_separated {parts : List (List Char)} (h : ∀ part ∈ parts, Neutral part) :
    Neutral (separated parts) := by
  induction parts with
  | nil => exact neutral_nil
  | cons part more ih =>
      obtain ⟨hpart, hmore⟩ := List.forall_mem_cons.mp h
      cases more with
      | nil =>
          rw [separated_singleton]
          exact hpart
      | cons second more =>
          rw [separated_cons]
          exact hpart.append ((neutral_char (by decide) (by decide) (by decide)).append (ih hmore))

/-- The properties, with the braces around them, are a block. -/
def Body.ofProperties (entries : List Property) : Body where
  text := separated (entries.map Property.text)
  closes := by
    have hneutral : Neutral (separated (entries.map Property.text)) := by
      apply neutral_separated
      intro part hpart
      obtain ⟨p, -, rfl⟩ := List.mem_map.mp hpart
      exact p.neutral
    rw [hneutral]
    exact congrArg some (Nat.add_comm 1 _)

end RowRecipe.Written
