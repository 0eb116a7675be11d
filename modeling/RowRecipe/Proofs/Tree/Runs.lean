import RowRecipe.Proofs.Tree.Grammar

/-!
Items and runs. No item has a lexeme in it that ends a run, so items with terminators between them
are cut at these, and each of them is a run of its own.
-/

namespace RowRecipe

namespace Lexeme

/-- No lexeme ends a directive or a pragma. -/
def Inner (ls : List Lexeme) : Prop := ∀ l ∈ ls, l.kind.isTerminator = false

theorem inner_nil : Inner [] := List.forall_mem_nil _

theorem inner_cons {l : Lexeme} {ls : List Lexeme} (hl : l.kind.isTerminator = false)
    (hls : Inner ls) : Inner (l :: ls) :=
  List.forall_mem_cons.mpr ⟨hl, hls⟩

theorem Inner.append {ls more : List Lexeme} (h : Inner ls) (hmore : Inner more) :
    Inner (ls ++ more) :=
  List.forall_mem_append.mpr ⟨h, hmore⟩

theorem runs_of_inner {ls : List Lexeme} (h : Inner ls) (hne : ls ≠ []) : runs ls = [ls] := by
  rw [runs, List.splitOnP_eq_singleton h]
  exact List.filter_cons_of_pos (by simpa using hne)

theorem runs_append_cons {ls : List Lexeme} (h : Inner ls) (hne : ls ≠ []) {l : Lexeme}
    (hl : l.kind.isTerminator = true) (more : List Lexeme) :
    runs (ls ++ l :: more) = ls :: runs more := by
  rw [runs, List.splitOnP_append_cons_of_forall_mem h l hl]
  exact List.filter_cons_of_pos (by simpa using hne)

end Lexeme

namespace Grammar

open Lexeme

variable {source : List Char} {ls : List Lexeme} {node : Node} {nodes : List Node}

theorem Separated.forall_lexemes {separator : List Lexeme → Prop} {phrase : Phrase}
    {P : Lexeme → Prop} (h : Separated separator phrase ls nodes)
    (hseparator : ∀ ls, separator ls → ∀ l ∈ ls, P l)
    (hphrase : ∀ ls node, phrase ls node → ∀ l ∈ ls, P l) : ∀ l ∈ ls, P l := by
  induction h with
  | one hfirst => exact hphrase _ _ hfirst
  | cons hfirst hbetween _ ih =>
      exact List.forall_mem_append.mpr ⟨hphrase _ _ hfirst,
        List.forall_mem_append.mpr ⟨hseparator _ hbetween, ih⟩⟩

theorem Comma.kinds (h : Comma ls) : ∀ l ∈ ls, l.kind = .comma := by
  obtain ⟨comma, rfl, hcomma⟩ := h
  exact List.forall_mem_singleton.mpr hcomma

theorem Single.kinds {kind : Kind} {rule : Rule} (h : Single source kind rule ls node) :
    ∀ l ∈ ls, l.kind = kind := by
  obtain ⟨l, rfl, hl, -⟩ := h
  exact List.forall_mem_singleton.mpr hl

theorem Range.kinds (h : Range source ls node) :
    ∀ l ∈ ls, l.kind ∈ [Kind.number, .colon, .equals, .string] := by
  cases h with
  | intro hlow hcolon hhigh hequals hlabel =>
      simp only [List.mem_cons, Prod.mk.injEq, List.not_mem_nil, or_false] at hlabel
      rcases hlabel with ⟨hlabel, -⟩ | ⟨hlabel, -⟩ <;> simp [hlow, hcolon, hhigh, hequals, hlabel]

/-- The kinds of lexemes in a list of single items. -/
theorem Separated.kinds_single {kind : Kind} {rule : Rule}
    (h : Separated Comma (Single source kind rule) ls nodes) :
    ∀ l ∈ ls, l.kind ∈ [Kind.comma, kind] := by
  refine h.forall_lexemes (fun ls hcomma l hl => ?_) (fun ls node hsingle l hl => ?_)
  · simp [hcomma.kinds l hl]
  · simp [hsingle.kinds l hl]

/-- The kinds of lexemes in a list of ranges. -/
theorem Separated.kinds_range (h : Separated Comma (Range source) ls nodes) :
    ∀ l ∈ ls, l.kind ∈ [Kind.comma, .number, .colon, .equals, .string] := by
  refine h.forall_lexemes (fun ls hcomma l hl => ?_) (fun ls node hrange l hl => ?_)
  · simp [hcomma.kinds l hl]
  · exact List.mem_cons_of_mem _ (hrange.kinds l hl)

theorem inner_of_kinds {kinds : List Kind} (hkinds : ∀ kind ∈ kinds, kind.isTerminator = false)
    (h : ∀ l ∈ ls, l.kind ∈ kinds) : Inner ls :=
  fun l hl => hkinds l.kind (h l hl)

theorem Argument.inner (h : Argument source ls node) : Inner ls := by
  cases h with
  | list hkind hitems =>
      have hlisted : ∀ k ∈ listRules, ∀ kind ∈ [Kind.comma, k.1], kind.isTerminator = false := by
        decide
      exact inner_of_kinds (hlisted _ hkind) hitems.kinds_single
  | ranges hranges => exact inner_of_kinds (by decide) hranges.kinds_range
  | quantity hkind => exact inner_cons (by rw [hkind]; rfl) inner_nil
  | block hkind => exact inner_cons (by rw [hkind]; rfl) inner_nil
  | name hkind => exact inner_cons (by rw [hkind]; rfl) inner_nil
  | expression hname _ hcolon hblock =>
      exact inner_cons (by rw [hname]; rfl) (inner_cons (by rw [hcolon]; rfl)
        (inner_cons (by rw [hblock]; rfl) inner_nil))
  | properties hname _ hcolon hblock =>
      exact inner_cons (by rw [hname]; rfl) (inner_cons (by rw [hcolon]; rfl)
        (inner_cons (by rw [hblock]; rfl) inner_nil))

theorem Arguments.inner (h : Arguments source ls nodes) : Inner ls := by
  induction h with
  | nil => exact inner_nil
  | cons hfirst _ ih => exact hfirst.inner.append ih

/-- An item is on one line only, as far as its lexemes tell. -/
theorem Item.inner (h : Item source ls node) : Inner ls := by
  cases h with
  | loadables hstart hkind _ hnames =>
      refine inner_cons (by rw [hstart]; rfl) (inner_cons (by rw [hkind]; rfl) ?_)
      exact inner_of_kinds (by decide) hnames.kinds_single
  | version hstart hkind _ hvalue =>
      refine inner_cons (by rw [hstart]; rfl) (inner_cons (by rw [hkind]; rfl)
        (inner_cons ?_ inner_nil))
      simp only [List.mem_cons, Prod.mk.injEq, List.not_mem_nil, or_false] at hvalue
      rcases hvalue with ⟨hkind, -⟩ | ⟨hkind, -⟩
      · rw [hkind]
        rfl
      · rw [hkind]
        rfl
  | directive hname harguments =>
      refine Inner.append ?_ harguments.inner
      cases hname with
      | name hkind => exact inner_cons (by rw [hkind]; rfl) inner_nil
      | custom hbang hkind =>
          exact inner_cons (by rw [hbang]; rfl) (inner_cons (by rw [hkind]; rfl) inner_nil)

end Grammar

end RowRecipe
