import Mathlib.Data.List.TakeWhile
import RowRecipe.Proofs.Outcome
import RowRecipe.Proofs.Tree.Grammar

/-!
Readers against the grammar. What a reader takes is a sentence of its rule; and where a sentence is
in front of lexemes that cannot continue it, the reader takes it and gives its node. A reader that
looks no further than its own lexemes has both directions as one equivalence.
-/

namespace RowRecipe

open Outcome

namespace Ending

variable {ending : Ending} {wanted : Wanted} {ls rest : List Lexeme} {l : Lexeme}

theorem expect_eq_ok {kind : Lexeme.Kind} :
    ending.expect wanted kind ls = .ok (l, rest) ↔ ls = l :: rest ∧ l.kind = kind := by
  cases ls with
  | nil => simp [expect]
  | cons first more =>
      by_cases hkind : first.kind = kind
      · simp only [expect, if_pos hkind, Except.ok.injEq, Prod.mk.injEq, List.cons.injEq]
        constructor
        · rintro ⟨rfl, rfl⟩
          exact ⟨⟨rfl, rfl⟩, hkind⟩
        · exact And.left
      · simp only [expect, if_neg hkind, List.cons.injEq, reduceCtorEq, false_iff]
        rintro ⟨⟨rfl, -⟩, h⟩
        exact hkind h

theorem expectOneOf_eq_ok {kinds : List (Lexeme.Kind × Rule)} {rule : Rule}
    (hkinds : (kinds.map Prod.fst).Nodup) :
    ending.expectOneOf wanted kinds ls = .ok ((rule, l), rest) ↔
      ls = l :: rest ∧ (l.kind, rule) ∈ kinds := by
  cases ls with
  | nil => simp [expectOneOf]
  | cons first more =>
      have hfind : (∃ k, kinds.find? (fun k => k.1 == first.kind) = some (k, rule)) ↔
          (first.kind, rule) ∈ kinds := by
        constructor
        · rintro ⟨k, hk⟩
          obtain rfl : k = first.kind := by simpa using List.find?_some hk
          exact List.mem_of_find?_eq_some hk
        · intro hmem
          refine ⟨first.kind, ?_⟩
          induction kinds with
          | nil => cases hmem
          | cons entry others ih =>
              obtain ⟨hentry, hothers⟩ := List.nodup_cons.mp hkinds
              rcases List.mem_cons.mp hmem with rfl | hmem
              · simp
              · have hne : entry.1 ≠ first.kind := fun h =>
                  hentry (h ▸ List.mem_map_of_mem (f := Prod.fst) hmem)
                rw [List.find?_cons_of_neg (by simpa using hne)]
                exact ih hothers hmem
      simp only [expectOneOf]
      cases hfound : kinds.find? (fun k => k.1 == first.kind) with
      | none =>
          have hnone : (first.kind, rule) ∉ kinds := fun h => by simpa [hfound] using hfind.mpr h
          simp only [List.cons.injEq, reduceCtorEq, false_iff]
          rintro ⟨⟨rfl, -⟩, h⟩
          exact hnone h
      | some entry =>
          obtain ⟨k, found⟩ := entry
          rw [hfound] at hfind
          simp only [Except.ok.injEq, Prod.mk.injEq, List.cons.injEq]
          constructor
          · rintro ⟨⟨rfl, rfl⟩, rfl⟩
            exact ⟨⟨rfl, rfl⟩, hfind.mp ⟨k, rfl⟩⟩
          · rintro ⟨⟨rfl, rfl⟩, h⟩
            obtain ⟨k', hk'⟩ := hfind.mpr h
            exact ⟨⟨(Prod.mk.inj (Option.some.inj hk')).2, rfl⟩, rfl⟩

end Ending

namespace Grammar

open Node

variable {source : List Char} {ending : Ending} {ls rest : List Lexeme} {node : Node}

/-- No argument goes on with these lexemes. -/
def Stops (rest : List Lexeme) : Prop :=
  ∀ l ∈ rest.head?, l.kind ≠ .comma ∧ l.kind ≠ .colon

theorem stops_nil : Stops [] := by
  intro l hl
  cases hl

theorem endOffset_leaf (rule : Rule) (l : Lexeme) : (leaf source rule l).endOffset = l.stop := by
  simp [endOffset, leaf, Lexeme.content, Lexeme.stop, Position.ofOffset]

theorem coverLexemes_eq_coverNodes {first : Lexeme} {more : List Lexeme} {r s : Rule}
    {nodes : List Node} (hfirst : nodes.head? = some (leaf source r first))
    (hlast : nodes.getLast? = some (leaf source s (more.getLast?.getD first))) (rule : Rule) :
    coverLexemes source rule first more nodes = coverNodes source rule nodes := by
  rw [coverNodes, hfirst, hlast, Option.map_some, Option.map_some, Option.getD_some,
    Option.getD_some, endOffset_leaf]
  rfl

theorem ofItems_eq_itemsNode (itemRule listRule : Rule) (first : Lexeme) (more : List Lexeme) :
    ofItems source itemRule listRule first more =
      itemsNode source listRule ((first :: more).map (leaf source itemRule)) := by
  cases more with
  | nil => rfl
  | cons second more =>
      refine coverLexemes_eq_coverNodes (r := itemRule) (s := itemRule) rfl ?_ listRule
      rw [List.getLast?_map, List.getLast?_cons, List.getLast?_cons]
      rfl

theorem items_sound (source : List Char) (rule : Rule) {kind : Lexeme.Kind} {more : List Lexeme}
    {first : Lexeme} (hfirst : first.kind = kind) (h : ending.items kind ls = .ok (more, rest)) :
    ∃ taken, ls = taken ++ rest ∧
      Separated Comma (Single source kind rule) (first :: taken)
        ((first :: more).map (leaf source rule)) ∧
      (first :: taken).getLast? = (first :: more).getLast? := by
  fun_induction Ending.items ending kind ls generalizing first more with
  | case1 =>
      obtain ⟨rfl, rfl⟩ := Prod.mk.inj (Except.ok.inj h)
      exact ⟨[], rfl, .one ⟨first, rfl, hfirst, rfl⟩, rfl⟩
  | case2 => cases h
  | case3 comma hcomma l others hl ih =>
      obtain ⟨⟨more', rest'⟩, hmore, hpair⟩ := map_eq_ok.mp h
      obtain ⟨rfl, rfl⟩ := Prod.mk.inj hpair
      obtain ⟨taken, rfl, htaken, hlast⟩ := ih hl hmore
      refine ⟨comma :: l :: taken, rfl, ?_, ?_⟩
      · exact .cons ⟨first, rfl, hfirst, rfl⟩ ⟨comma, rfl, hcomma⟩ htaken
      · rw [List.getLast?_cons_cons, List.getLast?_cons_cons, hlast, List.getLast?_cons_cons]
  | case4 => cases h
  | case5 comma others hcomma =>
      obtain ⟨rfl, rfl⟩ := Prod.mk.inj (Except.ok.inj h)
      exact ⟨[], rfl, .one ⟨first, rfl, hfirst, rfl⟩, rfl⟩

theorem items_complete (ending : Ending) {kind : Lexeme.Kind} {rule : Rule} {nodes : List Node}
    (h : Separated Comma (Single source kind rule) ls nodes) (hrest : Stops rest) :
    ∃ first taken more, ls = first :: taken ∧ first.kind = kind ∧
      nodes = (first :: more).map (leaf source rule) ∧
      ending.items kind (taken ++ rest) = .ok (more, rest) ∧
      (first :: taken).getLast? = (first :: more).getLast? ∧
      ∀ l ∈ taken.head?, l.kind = .comma := by
  induction h with
  | one hsingle =>
      obtain ⟨first, rfl, hfirst, rfl⟩ := hsingle
      refine ⟨first, [], [], rfl, hfirst, rfl, ?_, rfl, fun l hl => nomatch hl⟩
      cases rest with
      | nil => rfl
      | cons l others =>
          have hl := (hrest l rfl).1
          rw [List.nil_append, Ending.items.eq_def]
          simp only [if_neg hl]
  | cons hsingle hbetween _ ih =>
      obtain ⟨first, rfl, hfirst, rfl⟩ := hsingle
      obtain ⟨comma, rfl, hcomma⟩ := hbetween
      obtain ⟨l, taken, more, rfl, hl, rfl, hitems, hlast, -⟩ := ih
      refine ⟨first, comma :: l :: taken, l :: more, rfl, hfirst, rfl, ?_, ?_, ?_⟩
      · simp only [List.cons_append, Ending.items, if_pos hcomma, if_pos hl, hitems, Except.map]
      · rw [List.getLast?_cons_cons, List.getLast?_cons_cons, hlast, List.getLast?_cons_cons]
      · intro l' hl'
        obtain rfl := Option.some.inj hl'
        exact hcomma

theorem range_eq_ok : range source ending ls = .ok (node, rest) ↔
    ∃ taken, ls = taken ++ rest ∧ Range source taken node := by
  have hkinds : ([(.number, .number), (.string, .text)].map
      (Prod.fst : Lexeme.Kind × Rule → Lexeme.Kind)).Nodup := by decide
  have hcover : ∀ low high label rule, coverLexemes source .range low [label]
      [leaf source .number low, leaf source .number high, leaf source rule label] =
        coverNodes source .range
          [leaf source .number low, leaf source .number high, leaf source rule label] :=
    fun low high label rule => coverLexemes_eq_coverNodes (r := .number) (s := rule) rfl rfl .range
  constructor
  · intro h
    obtain ⟨⟨low, ls₁⟩, r₁, h₁⟩ := bind_eq_ok.mp h
    obtain ⟨⟨colon, ls₂⟩, r₂, h₂⟩ := bind_eq_ok.mp h₁
    obtain ⟨⟨high, ls₃⟩, r₃, h₃⟩ := bind_eq_ok.mp h₂
    obtain ⟨⟨equals, ls₄⟩, r₄, h₄⟩ := bind_eq_ok.mp h₃
    obtain ⟨⟨⟨rule, label⟩, ls₅⟩, r₅, h₅⟩ := bind_eq_ok.mp h₄
    obtain ⟨rfl, hlow⟩ := Ending.expect_eq_ok.mp r₁
    obtain ⟨rfl, hcolon⟩ := Ending.expect_eq_ok.mp r₂
    obtain ⟨rfl, hhigh⟩ := Ending.expect_eq_ok.mp r₃
    obtain ⟨rfl, hequals⟩ := Ending.expect_eq_ok.mp r₄
    obtain ⟨rfl, hlabel⟩ := (Ending.expectOneOf_eq_ok hkinds).mp r₅
    obtain ⟨rfl, rfl⟩ := Prod.mk.inj (Except.ok.inj h₅)
    refine ⟨[low, colon, high, equals, label], rfl, ?_⟩
    rw [hcover]
    exact .intro hlow hcolon hhigh hequals hlabel
  · rintro ⟨taken, rfl, htaken⟩
    cases htaken with
    | @intro low colon high equals label rule hlow hcolon hhigh hequals hlabel =>
        refine bind_eq_ok.mpr ⟨_, Ending.expect_eq_ok.mpr ⟨rfl, hlow⟩, ?_⟩
        refine bind_eq_ok.mpr ⟨_, Ending.expect_eq_ok.mpr ⟨rfl, hcolon⟩, ?_⟩
        refine bind_eq_ok.mpr ⟨_, Ending.expect_eq_ok.mpr ⟨rfl, hhigh⟩, ?_⟩
        refine bind_eq_ok.mpr ⟨_, Ending.expect_eq_ok.mpr ⟨rfl, hequals⟩, ?_⟩
        refine bind_eq_ok.mpr ⟨_, (Ending.expectOneOf_eq_ok hkinds).mpr ⟨rfl, hlabel⟩, ?_⟩
        rw [← hcover]
        rfl

theorem ranges_sound {fuel : Nat} {nodes : List Node}
    (h : ranges source ending fuel ls = .ok (nodes, rest)) :
    ∃ taken, ls = taken ++ rest ∧ Separated Comma (Range source) taken nodes := by
  induction fuel generalizing ls nodes with
  | zero => cases h
  | succ fuel ih =>
      obtain ⟨⟨first, left⟩, hfirst, hnext⟩ := bind_eq_ok.mp h
      obtain ⟨taken, rfl, htaken⟩ := range_eq_ok.mp hfirst
      cases left with
      | nil =>
          obtain ⟨rfl, rfl⟩ := Prod.mk.inj (Except.ok.inj hnext)
          exact ⟨taken, rfl, .one htaken⟩
      | cons comma left =>
          by_cases hcomma : comma.kind = .comma
          · simp only [if_pos hcomma] at hnext
            obtain ⟨⟨more, left'⟩, hmore, hpair⟩ := bind_eq_ok.mp hnext
            obtain ⟨rfl, rfl⟩ := Prod.mk.inj (Except.ok.inj hpair)
            obtain ⟨others, rfl, hothers⟩ := ih hmore
            refine ⟨taken ++ ([comma] ++ others), ?_, .cons htaken ⟨comma, rfl, hcomma⟩ hothers⟩
            rw [List.append_assoc, List.append_assoc, List.singleton_append]
          · simp only [if_neg hcomma] at hnext
            obtain ⟨rfl, rfl⟩ := Prod.mk.inj (Except.ok.inj hnext)
            exact ⟨taken, rfl, .one htaken⟩

theorem ranges_complete (ending : Ending) {fuel : Nat} {nodes : List Node}
    (h : Separated Comma (Range source) ls nodes) (hrest : Stops rest) (hfuel : ls.length ≤ fuel) :
    ranges source ending fuel (ls ++ rest) = .ok (nodes, rest) := by
  induction h generalizing fuel with
  | @one taken first hfirst =>
      obtain ⟨fuel, rfl⟩ : ∃ n, fuel = n + 1 := by
        cases hfirst
        exact ⟨fuel - 1, by simp only [List.length_cons] at hfuel; omega⟩
      refine bind_eq_ok.mpr ⟨(first, rest), range_eq_ok.mpr ⟨taken, rfl, hfirst⟩, ?_⟩
      cases rest with
      | nil => rfl
      | cons l others => exact if_neg (hrest l rfl).1
  | @cons taken between others first nodes hfirst hbetween _ ih =>
      obtain ⟨comma, rfl, hcomma⟩ := hbetween
      simp only [List.length_append, List.length_singleton] at hfuel
      obtain ⟨fuel, rfl⟩ : ∃ n, fuel = n + 1 := ⟨fuel - 1, by omega⟩
      have hmore : ranges source ending fuel (others ++ rest) = .ok (nodes, rest) := ih (by omega)
      refine bind_eq_ok.mpr ⟨(first, comma :: (others ++ rest)), range_eq_ok.mpr ⟨taken, ?_, hfirst⟩, ?_⟩
      · rw [List.append_assoc, List.append_assoc, List.singleton_append]
      · simp only [if_pos hcomma, hmore]
        rfl

theorem property_eq_ok : property source ending ls = .ok (node, rest) ↔
    ∃ taken, ls = taken ++ rest ∧ Property source taken node := by
  have hkeys : ([(.identifier, .identifier), (.string, .text)].map
      (Prod.fst : Lexeme.Kind × Rule → Lexeme.Kind)).Nodup := by decide
  have hvalues : ([(.number, .number), (.bool, .bool), (.string, .text),
      (.identifier, .identifier)].map (Prod.fst : Lexeme.Kind × Rule → Lexeme.Kind)).Nodup := by
    decide
  have hcover : ∀ key value keyRule valueRule, coverLexemes source .property key [value]
      [leaf source keyRule key, leaf source valueRule value] =
        coverNodes source .property [leaf source keyRule key, leaf source valueRule value] :=
    fun key value keyRule valueRule =>
      coverLexemes_eq_coverNodes (r := keyRule) (s := valueRule) rfl rfl .property
  constructor
  · intro h
    obtain ⟨⟨⟨keyRule, key⟩, ls₁⟩, r₁, h₁⟩ := bind_eq_ok.mp h
    obtain ⟨⟨equals, ls₂⟩, r₂, h₂⟩ := bind_eq_ok.mp h₁
    obtain ⟨⟨⟨valueRule, value⟩, ls₃⟩, r₃, h₃⟩ := bind_eq_ok.mp h₂
    obtain ⟨rfl, hkey⟩ := (Ending.expectOneOf_eq_ok hkeys).mp r₁
    obtain ⟨rfl, hequals⟩ := Ending.expect_eq_ok.mp r₂
    obtain ⟨rfl, hvalue⟩ := (Ending.expectOneOf_eq_ok hvalues).mp r₃
    obtain ⟨rfl, rfl⟩ := Prod.mk.inj (Except.ok.inj h₃)
    refine ⟨[key, equals, value], rfl, ?_⟩
    rw [hcover]
    exact .intro hkey hequals hvalue
  · rintro ⟨taken, rfl, htaken⟩
    cases htaken with
    | @intro key equals value keyRule valueRule hkey hequals hvalue =>
        refine bind_eq_ok.mpr ⟨_, (Ending.expectOneOf_eq_ok hkeys).mpr ⟨rfl, hkey⟩, ?_⟩
        refine bind_eq_ok.mpr ⟨_, Ending.expect_eq_ok.mpr ⟨rfl, hequals⟩, ?_⟩
        refine bind_eq_ok.mpr ⟨_, (Ending.expectOneOf_eq_ok hvalues).mpr ⟨rfl, hvalue⟩, ?_⟩
        rw [← hcover]
        rfl

theorem exists_newlines (ls : List Lexeme) :
    ∃ blank, Newlines blank ∧ ls = blank ++ dropNewlines ls := by
  refine ⟨ls.takeWhile fun l => l.kind == .newline, ?_, List.takeWhile_append_dropWhile.symm⟩
  intro l hl
  simpa using List.mem_takeWhile_imp hl

theorem dropNewlines_append {blank : List Lexeme} (h : Newlines blank) (ls : List Lexeme) :
    dropNewlines (blank ++ ls) = dropNewlines ls := by
  refine List.dropWhile_append_of_pos ?_
  intro l hl
  simpa using h l hl

theorem dropNewlines_cons {l : Lexeme} (h : l.kind ≠ .newline) (ls : List Lexeme) :
    dropNewlines (l :: ls) = l :: ls :=
  List.dropWhile_cons_of_neg (by simpa using h)

/-- A list of properties that was read is blank, or it starts with a property, and behind that there
are only newlines or a comma and the rest of the list. -/
theorem properties_cases {fuel : Nat} {nodes : List Node}
    (h : properties source ending fuel ls = .ok nodes) :
    (Newlines ls ∧ nodes = []) ∨
      ∃ rest before taken left node, fuel = rest + 1 ∧ Newlines before ∧
        ls = before ++ (taken ++ left) ∧ Property source taken node ∧
        ((Newlines left ∧ nodes = [node]) ∨
          ∃ middle comma others more, Newlines middle ∧ left = middle ++ comma :: others ∧
            comma.kind = .comma ∧ properties source ending rest others = .ok more ∧
            nodes = node :: more) := by
  obtain ⟨before, hbefore, hls⟩ := exists_newlines ls
  rw [properties.eq_def] at h
  cases hleft : dropNewlines ls with
  | nil =>
      rw [hleft, List.append_nil] at hls
      simp only [hleft] at h
      exact .inl ⟨hls ▸ hbefore, (Except.ok.inj h).symm⟩
  | cons l left =>
      right
      simp only [hleft] at h
      cases fuel with
      | zero => cases h
      | succ fuel =>
          obtain ⟨⟨node, left'⟩, hnode, h⟩ := bind_eq_ok.mp h
          obtain ⟨taken, htaken, hproperty⟩ := property_eq_ok.mp hnode
          rw [hleft, htaken] at hls
          refine ⟨fuel, before, taken, left', node, rfl, hbefore, hls, hproperty, ?_⟩
          obtain ⟨middle, hmiddle, hleft'⟩ := exists_newlines left'
          cases hend : dropNewlines left' with
          | nil =>
              rw [hend, List.append_nil] at hleft'
              simp only [hend] at h
              exact .inl ⟨hleft' ▸ hmiddle, (Except.ok.inj h).symm⟩
          | cons comma others =>
              rw [hend] at hleft'
              simp only [hend] at h
              by_cases hcomma : comma.kind = .comma
              · rw [if_pos hcomma] at h
                obtain ⟨more, hmore, rfl⟩ := map_eq_ok.mp h
                exact .inr ⟨middle, comma, others, more, hmiddle, hleft', hcomma, hmore, rfl⟩
              · rw [if_neg hcomma] at h
                cases h

theorem properties_sound {fuel : Nat} {nodes : List Node}
    (h : properties source ending fuel ls = .ok nodes) : Properties source ls nodes := by
  induction fuel generalizing ls nodes with
  | zero =>
      obtain ⟨hblank, rfl⟩ | ⟨_, _, _, _, _, hfuel, -⟩ := properties_cases h
      · exact .none hblank
      · cases hfuel
  | succ fuel ih =>
      obtain ⟨hblank, rfl⟩ | ⟨rest, before, taken, left, node, hfuel, hbefore, rfl, hproperty,
        hleft⟩ := properties_cases h
      · exact .none hblank
      · obtain rfl := Nat.succ.inj hfuel
        obtain ⟨hblank, rfl⟩ | ⟨middle, comma, others, more, hmiddle, rfl, hcomma, hmore, rfl⟩ :=
          hleft
        · exact .some hbefore (.one hproperty) (.inl hblank)
        · cases ih hmore with
          | none hblank =>
              exact .some hbefore (.one hproperty)
                (.inr ⟨middle, comma, others, rfl, hmiddle, hcomma, hblank⟩)
          | @some before' entries after _ hbefore' hentries hafter =>
              have hall : before ++ (taken ++ (middle ++ comma :: (before' ++ (entries ++ after)))) =
                  before ++ ((taken ++ ((middle ++ comma :: before') ++ entries)) ++ after) := by
                simp only [List.append_assoc, List.cons_append]
              rw [hall]
              exact .some hbefore (.cons hproperty
                ⟨middle, comma, before', rfl, hmiddle, hcomma, hbefore'⟩ hentries) hafter

theorem properties_of_newlines (fuel : Nat) (h : Newlines ls) :
    properties source ending fuel ls = .ok [] := by
  have hdrop : dropNewlines ls = [] := by
    have happend := dropNewlines_append h []
    rw [List.append_nil] at happend
    exact happend
  rw [properties.eq_def]
  simp only [hdrop]

theorem Property.head {taken : List Lexeme} (h : Property source taken node) :
    ∃ key more, taken = key :: more ∧ key.kind ≠ .newline := by
  cases h with
  | @intro key equals value keyRule valueRule hkey hequals hvalue =>
      refine ⟨key, [equals, value], rfl, ?_⟩
      intro hnewline
      rw [hnewline] at hkey
      simp at hkey

/-- A property after newlines is taken; what comes after it decides how the list goes on. -/
theorem properties_step {before taken left : List Lexeme} (fuel : Nat) (hbefore : Newlines before)
    (h : Property source taken node) :
    properties source ending (fuel + 1) (before ++ (taken ++ left)) =
      match dropNewlines left with
      | [] => .ok [node]
      | comma :: others =>
          if comma.kind = .comma then (properties source ending fuel others).map (node :: ·)
          else .error (ending.fault .propertyComma (comma :: others)) := by
  obtain ⟨key, more, rfl, hkey⟩ := h.head
  have hread : property source ending (key :: (more ++ left)) = .ok (node, left) :=
    property_eq_ok.mpr ⟨key :: more, rfl, h⟩
  have hdrop : dropNewlines (before ++ (key :: more ++ left)) = key :: (more ++ left) := by
    rw [dropNewlines_append hbefore, List.cons_append, dropNewlines_cons hkey]
  rw [properties.eq_def]
  simp only [hdrop, hread]
  rfl

theorem properties_complete {fuel : Nat} {nodes : List Node} (h : Properties source ls nodes)
    (hfuel : ls.length ≤ fuel) : properties source ending fuel ls = .ok nodes := by
  cases h with
  | none hblank => exact properties_of_newlines fuel hblank
  | @some before entries after _ hbefore hentries hafter =>
      -- Along the entries, for any newlines in front of those that are left.
      induction hentries generalizing fuel before with
      | @one taken first hfirst =>
          obtain ⟨key, more, rfl, -⟩ := hfirst.head
          obtain ⟨fuel, rfl⟩ : ∃ n, fuel = n + 1 :=
            ⟨fuel - 1, by simp only [List.length_append, List.length_cons] at hfuel; omega⟩
          rw [properties_step fuel hbefore hfirst]
          rcases hafter with hafter | ⟨middle, comma, last, rfl, hmiddle, hcomma, hlast⟩
          · have hdrop := dropNewlines_append hafter []
            rw [List.append_nil] at hdrop
            rw [hdrop]
            rfl
          · have hne : comma.kind ≠ .newline := by
              rw [hcomma]
              decide
            rw [dropNewlines_append hmiddle, dropNewlines_cons hne]
            simp only [if_pos hcomma, properties_of_newlines fuel hlast]
            rfl
      | @cons taken between others first nodes hfirst hbetween _ ih =>
          obtain ⟨middle, comma, before', rfl, hmiddle, hcomma, hbefore'⟩ := hbetween
          simp only [List.length_append, List.length_cons] at hfuel
          obtain ⟨fuel, rfl⟩ : ∃ n, fuel = n + 1 := ⟨fuel - 1, by omega⟩
          have hne : comma.kind ≠ .newline := by
            rw [hcomma]
            decide
          have hmore : properties source ending fuel (before' ++ (others ++ after)) = .ok nodes := by
            apply ih hbefore'
            simp only [List.length_append]
            omega
          have hleft : middle ++ comma :: before' ++ others ++ after =
              middle ++ comma :: (before' ++ (others ++ after)) := by
            simp only [List.append_assoc, List.cons_append]
          rw [List.append_assoc taken, properties_step fuel hbefore hfirst, hleft,
            dropNewlines_append hmiddle, dropNewlines_cons hne]
          simp only [if_pos hcomma, hmore]
          rfl

theorem propertiesOf_eq_ok {block : Lexeme} {nodes : List Node} :
    propertiesOf source block = .ok nodes ↔
      ∃ inner, Lexeme.scan (block.text.drop 1).dropLast (block.start + 1) = .ok inner ∧
        Properties source inner nodes := by
  unfold propertiesOf
  cases Lexeme.scan (block.text.drop 1).dropLast (block.start + 1) with
  | error failure =>
      constructor
      · intro h
        cases h
      · rintro ⟨inner, hinner, -⟩
        cases hinner
  | ok ls =>
      constructor
      · intro h
        exact ⟨ls, rfl, properties_sound h⟩
      · rintro ⟨inner, hinner, h⟩
        obtain rfl := Except.ok.inj hinner
        exact properties_complete h (Nat.le_refl _)

theorem named_sound {name : Lexeme} (hname : name.kind = .identifier)
    (h : named source name ls = .ok (node, rest)) :
    ∃ taken, name :: ls = taken ++ rest ∧ Argument source taken node := by
  have hplain : (.ok (leaf source .identifier name, ls) : Except GrammarFault _) =
      .ok (node, rest) → ∃ taken, name :: ls = taken ++ rest ∧ Argument source taken node := by
    intro h
    obtain ⟨rfl, rfl⟩ := Prod.mk.inj (Except.ok.inj h)
    exact ⟨[name], rfl, .name hname⟩
  unfold named at h
  split at h
  · rename_i colon block left
    split at h
    · rename_i hprop
      obtain ⟨nodes, hnodes, h⟩ := bind_eq_ok.mp h
      obtain ⟨rfl, rfl⟩ := Prod.mk.inj (Except.ok.inj h)
      obtain ⟨inner, hinner, hentries⟩ := propertiesOf_eq_ok.mp hnodes
      exact ⟨[name, colon, block], rfl,
        .properties hname hprop.2.2 hprop.1 hprop.2.1 hinner hentries⟩
    · split at h
      · rename_i hexp
        obtain ⟨rfl, rfl⟩ := Prod.mk.inj (Except.ok.inj h)
        exact ⟨[name, colon, block], rfl, .expression hname hexp.2.2 hexp.1 hexp.2.1⟩
      · exact hplain h
  · exact hplain h

theorem list_sound {kind : Lexeme.Kind} {itemRule listRule : Rule} {first : Lexeme}
    (hrules : (kind, itemRule, listRule) ∈ listRules) (hfirst : first.kind = kind)
    (h : (do
      let (more, ls) ← ending.items kind ls
      .ok (ofItems source itemRule listRule first more, ls)) = .ok (node, rest)) :
    ∃ taken, first :: ls = taken ++ rest ∧ Argument source taken node := by
  obtain ⟨⟨more, left⟩, hmore, h⟩ := bind_eq_ok.mp h
  obtain ⟨rfl, rfl⟩ := Prod.mk.inj (Except.ok.inj h)
  obtain ⟨taken, rfl, htaken, -⟩ := items_sound source itemRule hfirst hmore
  rw [ofItems_eq_itemsNode]
  exact ⟨first :: taken, rfl, .list hrules htaken⟩

theorem numeric_sound {number : Lexeme} (hnumber : number.kind = .number)
    (h : numeric source ending number ls = .ok (node, rest)) :
    ∃ taken, number :: ls = taken ++ rest ∧ Argument source taken node := by
  unfold numeric at h
  split at h
  · obtain ⟨⟨entries, left⟩, hentries, h⟩ := bind_eq_ok.mp h
    obtain ⟨rfl, rfl⟩ := Prod.mk.inj (Except.ok.inj h)
    obtain ⟨taken, htaken, hranges⟩ := ranges_sound hentries
    exact ⟨taken, htaken, .ranges hranges⟩
  · exact list_sound (by simp [listRules]) hnumber h

theorem argument_sound {first : Lexeme} (h : argument source ending first ls = .ok (node, rest)) :
    ∃ taken, first :: ls = taken ++ rest ∧ Argument source taken node := by
  unfold argument at h
  split at h
  · rename_i hkind
    exact list_sound (by simp [listRules]) hkind h
  · rename_i hkind
    exact list_sound (by simp [listRules]) hkind h
  · rename_i hkind
    exact list_sound (by simp [listRules]) hkind h
  · rename_i hkind
    exact numeric_sound hkind h
  · rename_i hkind
    obtain ⟨rfl, rfl⟩ := Prod.mk.inj (Except.ok.inj h)
    exact ⟨[first], rfl, .quantity hkind⟩
  · rename_i hkind
    obtain ⟨rfl, rfl⟩ := Prod.mk.inj (Except.ok.inj h)
    exact ⟨[first], rfl, .block hkind⟩
  · rename_i hkind
    exact named_sound hkind h
  · cases h

theorem list_complete (ending : Ending) (listRule : Rule) {kind : Lexeme.Kind} {itemRule : Rule}
    {nodes : List Node}
    (h : Separated Comma (Single source kind itemRule) ls nodes) (hrest : Stops rest) :
    ∃ first taken, ls = first :: taken ∧ first.kind = kind ∧
      (do
        let (more, ls) ← ending.items kind (taken ++ rest)
        .ok (ofItems source itemRule listRule first more, ls) : Except GrammarFault _) =
          .ok (itemsNode source listRule nodes, rest) ∧
      ∀ l ∈ (taken ++ rest).head?, l.kind ≠ .colon := by
  obtain ⟨first, taken, more, rfl, hfirst, rfl, hitems, -, hhead⟩ :=
    items_complete ending h hrest
  refine ⟨first, taken, rfl, hfirst, ?_, ?_⟩
  · rw [hitems, ← ofItems_eq_itemsNode]
    rfl
  · cases taken with
    | nil => exact fun l hl => (hrest l hl).2
    | cons comma others =>
        intro l hl hcolon
        obtain rfl := Option.some.inj hl
        have hcomma := hhead comma rfl
        rw [hcolon] at hcomma
        cases hcomma

theorem ranges_head {nodes : List Node} (h : Separated Comma (Range source) ls nodes) :
    ∃ low colon more, ls = low :: colon :: more ∧ low.kind = .number ∧ colon.kind = .colon := by
  cases h with
  | one hfirst =>
      cases hfirst with
      | intro hlow hcolon => exact ⟨_, _, _, rfl, hlow, hcolon⟩
  | cons hfirst _ _ =>
      cases hfirst with
      | intro hlow hcolon => exact ⟨_, _, _, rfl, hlow, hcolon⟩

theorem argument_of_identifier {name : Lexeme} (h : name.kind = .identifier) :
    argument source ending name ls = named source name ls := by
  unfold argument
  rw [h]

theorem argument_complete (ending : Ending) (h : Argument source ls node) (hrest : Stops rest) :
    ∃ first more, ls = first :: more ∧
      argument source ending first (more ++ rest) = .ok (node, rest) := by
  cases h with
  | @list kind itemRule listRule _ nodes hkind hitems =>
      obtain ⟨first, taken, rfl, hfirst, hread, hhead⟩ := list_complete ending listRule hitems hrest
      refine ⟨first, taken, rfl, ?_⟩
      simp only [listRules, List.mem_cons, Prod.mk.injEq, List.not_mem_nil, or_false] at hkind
      unfold argument
      rw [hfirst]
      rcases hkind with ⟨rfl, rfl, rfl⟩ | ⟨rfl, rfl, rfl⟩ | ⟨rfl, rfl, rfl⟩ | ⟨rfl, rfl, rfl⟩
      · exact hread
      · exact hread
      · exact hread
      · have hcolon : ¬((taken ++ rest).head?.any fun l => l.kind == .colon) = true := by
          cases hl : (taken ++ rest).head? with
          | none => decide
          | some l => simpa using hhead l hl
        simp only [numeric, if_neg hcolon]
        exact hread
  | @ranges _ nodes hranges =>
      obtain ⟨low, colon, more, rfl, hlow, hcolon⟩ := ranges_head hranges
      have hread : ranges source ending ((colon :: more ++ rest).length + 1)
          (low :: colon :: more ++ rest) = .ok (nodes, rest) := by
        apply ranges_complete ending hranges hrest
        simp only [List.length_cons, List.length_append]
        omega
      have hany : ((colon :: more ++ rest).head?.any fun l => l.kind == .colon) = true := by
        simp [hcolon]
      refine ⟨low, colon :: more, rfl, ?_⟩
      unfold argument
      rw [hlow]
      simp only [numeric, if_pos hany, ← List.cons_append, hread]
      rfl
  | @quantity l hkind =>
      refine ⟨l, [], rfl, ?_⟩
      unfold argument
      rw [hkind]
      rfl
  | @block l hkind =>
      refine ⟨l, [], rfl, ?_⟩
      unfold argument
      rw [hkind]
      rfl
  | @name l hkind =>
      refine ⟨l, [], rfl, ?_⟩
      rw [argument_of_identifier hkind, List.nil_append]
      unfold named
      split
      · rename_i colon block left
        have hcolon : colon.kind ≠ .colon := (hrest colon rfl).2
        rw [if_neg (fun h => hcolon h.1), if_neg (fun h => hcolon h.1)]
      · rfl
  | @expression name colon block hname hword hcolon hblock =>
      refine ⟨name, [colon, block], rfl, ?_⟩
      have hprop : ¬(colon.kind = .colon ∧ block.kind = .block ∧ name.content = "prop") := by
        rintro ⟨-, -, h⟩
        rw [hword] at h
        exact absurd h (by decide)
      rw [argument_of_identifier hname]
      simp only [List.cons_append, List.nil_append, named, if_neg hprop,
        if_pos (And.intro hcolon (And.intro hblock hword))]
  | @properties name colon block inner nodes hname hword hcolon hblock hinner hentries =>
      refine ⟨name, [colon, block], rfl, ?_⟩
      rw [argument_of_identifier hname]
      simp only [List.cons_append, List.nil_append, named,
        if_pos (And.intro hcolon (And.intro hblock hword)),
        propertiesOf_eq_ok.mpr ⟨inner, hinner, hentries⟩]
      rfl

theorem Argument.head (h : Argument source ls node) :
    ∃ first more, ls = first :: more ∧ first.kind ≠ .comma ∧ first.kind ≠ .colon := by
  have hkind : ∀ {first : Lexeme} {kind : Lexeme.Kind}, first.kind = kind → kind ≠ .comma →
      kind ≠ .colon → first.kind ≠ .comma ∧ first.kind ≠ .colon := by
    rintro first kind rfl hcomma hcolon
    exact ⟨hcomma, hcolon⟩
  cases h with
  | list hrules hitems =>
      obtain ⟨first, taken, more, rfl, hfirst, -⟩ := items_complete ⟨0, none⟩ hitems stops_nil
      simp only [listRules, List.mem_cons, Prod.mk.injEq, List.not_mem_nil, or_false] at hrules
      rcases hrules with ⟨rfl, -⟩ | ⟨rfl, -⟩ | ⟨rfl, -⟩ | ⟨rfl, -⟩ <;>
        exact ⟨first, taken, rfl, hkind hfirst (by decide) (by decide)⟩
  | ranges hranges =>
      obtain ⟨low, colon, more, rfl, hlow, -⟩ := ranges_head hranges
      exact ⟨low, colon :: more, rfl, hkind hlow (by decide) (by decide)⟩
  | quantity hl => exact ⟨_, _, rfl, hkind hl (by decide) (by decide)⟩
  | block hl => exact ⟨_, _, rfl, hkind hl (by decide) (by decide)⟩
  | name hl => exact ⟨_, _, rfl, hkind hl (by decide) (by decide)⟩
  | expression hname => exact ⟨_, _, rfl, hkind hname (by decide) (by decide)⟩
  | properties hname => exact ⟨_, _, rfl, hkind hname (by decide) (by decide)⟩

theorem Arguments.stops {nodes : List Node} (h : Arguments source ls nodes) : Stops ls := by
  cases h with
  | nil => exact stops_nil
  | cons hfirst _ =>
      obtain ⟨first, more, rfl, hkinds⟩ := hfirst.head
      intro l hl
      obtain rfl := Option.some.inj hl
      exact hkinds

theorem arguments_sound {fuel : Nat} {nodes : List Node}
    (h : arguments source ending fuel ls = .ok nodes) : Arguments source ls nodes := by
  induction fuel generalizing ls nodes with
  | zero =>
      cases ls with
      | nil =>
          obtain rfl := Except.ok.inj h
          exact .nil
      | cons l rest => cases h
  | succ fuel ih =>
      cases ls with
      | nil =>
          obtain rfl := Except.ok.inj h
          exact .nil
      | cons l rest =>
          obtain ⟨⟨first, left⟩, hfirst, hnext⟩ := bind_eq_ok.mp h
          obtain ⟨more, hmore, rfl⟩ := map_eq_ok.mp hnext
          obtain ⟨taken, htaken, hargument⟩ := argument_sound hfirst
          rw [htaken]
          exact .cons hargument (ih hmore)

theorem arguments_complete (ending : Ending) {fuel : Nat} {nodes : List Node}
    (h : Arguments source ls nodes) (hfuel : ls.length ≤ fuel) :
    arguments source ending fuel ls = .ok nodes := by
  induction h generalizing fuel with
  | nil => cases fuel <;> rfl
  | cons hfirst hmore ih =>
      obtain ⟨l, taken, rfl, hread⟩ := argument_complete ending hfirst hmore.stops
      simp only [List.length_append, List.length_cons] at hfuel
      obtain ⟨fuel, rfl⟩ : ∃ n, fuel = n + 1 := ⟨fuel - 1, by omega⟩
      exact bind_eq_ok.mpr ⟨_, hread, map_eq_ok.mpr ⟨_, ih (by omega), rfl⟩⟩

end Grammar

end RowRecipe
