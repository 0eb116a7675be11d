import RowRecipe.Proofs.Quantity.Literals
import RowRecipe.Proofs.Tree.Literals
import RowRecipe.SymbolTable.OfTree

/-!
Why arguments are refused. The token of an argument is refused for one of its literals: for the first
number that is past the range of floating-point values, or the first quantity in no known unit. There
is no other reason in a tree that was read from a text.
-/

namespace RowRecipe

/-- The computation fails with the first refusal, if there is one, and otherwise gives a result that
has the property. -/
def Decided {α : Type} (refusals : List (Option CompileError)) (P : α → Prop)
    (result : Except CompileError α) : Prop :=
  match refusals.findSome? id with
  | some e => result = .error e
  | none => ∃ x, result = .ok x ∧ P x

namespace Decided

variable {α β : Type} {refusals others : List (Option CompileError)} {P : α → Prop} {Q : β → Prop}
  {result : Except CompileError α}

theorem ok {x : α} (hx : P x) : Decided [] P (.ok x) :=
  ⟨x, rfl, hx⟩

theorem allowed {x : α} (hx : P x) : Decided [none] P (.ok x) :=
  ⟨x, rfl, hx⟩

theorem error (e : CompileError) (P : α → Prop) : Decided [some e] P (.error e) :=
  rfl

theorem unrefused (h : Decided refusals P result) : Decided (none :: refusals) P result :=
  h

theorem refused (refusals : List (Option CompileError)) (P : α → Prop) (e : CompileError) :
    Decided (some e :: refusals) P (.error e) :=
  rfl

theorem bind {next : α → Except CompileError β} (h : Decided refusals P result)
    (hnext : ∀ x, P x → Decided others Q (next x)) :
    Decided (refusals ++ others) Q (result >>= next) := by
  unfold Decided at h ⊢
  rw [List.findSome?_append]
  cases hfirst : refusals.findSome? id with
  | some e =>
      rw [hfirst] at h
      obtain rfl := h
      rfl
  | none =>
      rw [hfirst] at h
      obtain ⟨x, rfl, hx⟩ := h
      exact hnext x hx

theorem map {g : α → β} (h : Decided refusals P result) (hg : ∀ x, P x → Q (g x)) :
    Decided refusals Q (result.map g) := by
  have hbind : result.map g = result >>= fun x => .ok (g x) := by
    cases result <;> rfl
  rw [hbind, ← List.append_nil refusals]
  exact h.bind fun x hx => .ok (hg x hx)

theorem mapM {f : α → Except CompileError β} {checks : α → List (Option CompileError)} {xs : List α}
    (h : ∀ x ∈ xs, Decided (checks x) Q (f x)) :
    Decided (xs.flatMap checks) (fun ys => ∀ y ∈ ys, Q y) (xs.mapM f) := by
  induction xs with
  | nil => exact ok (List.forall_mem_nil Q)
  | cons x rest ih =>
      obtain ⟨hx, hrest⟩ := List.forall_mem_cons.mp h
      rw [List.mapM_cons, List.flatMap_cons]
      refine hx.bind fun y hy => ?_
      rw [← List.append_nil (rest.flatMap checks)]
      refine (ih hrest).bind fun ys hys => ?_
      exact ok (List.forall_mem_cons.mpr ⟨hy, hys⟩)

theorem exists_ok_iff (h : Decided refusals P result) :
    (∃ x, result = .ok x) ↔ ∀ refusal ∈ refusals, refusal = none := by
  have hnone : refusals.findSome? id = none ↔ ∀ refusal ∈ refusals, refusal = none :=
    List.findSome?_eq_none_iff
  unfold Decided at h
  rw [← hnone]
  cases hfirst : refusals.findSome? id with
  | none =>
      rw [hfirst] at h
      obtain ⟨x, hx, -⟩ := h
      exact ⟨fun _ => rfl, fun _ => ⟨x, hx⟩⟩
  | some e =>
      rw [hfirst] at h
      rw [h]
      constructor
      · rintro ⟨x, hx⟩
        cases hx
      · intro heq
        cases heq

theorem eq_error_iff (h : Decided refusals P result) {e : CompileError} :
    result = .error e ↔ refusals.findSome? id = some e := by
  unfold Decided at h
  cases hfirst : refusals.findSome? id with
  | none =>
      rw [hfirst] at h
      obtain ⟨x, rfl, -⟩ := h
      constructor
      · intro heq
        cases heq
      · intro heq
        cases heq
  | some first =>
      rw [hfirst] at h
      rw [h, Except.error.injEq, Option.some.injEq]

end Decided

/-- The letters are the symbol of a unit of sizes or of durations, in any case. -/
def isUnitSuffix (suffix : List Char) : Bool :=
  (ByteUnit.all.map ByteUnit.symbol ++ TimeUnit.all.map TimeUnit.symbol).any fun symbol =>
    Text.sameIgnoringCase symbol.toList suffix

/-- Why a literal is refused, in the directive at a span: a number because it has no finite value, a
quantity because of its unit, and then it counts as a size. -/
def Node.refusal? (span : Span) (literal : Node) : Option CompileError :=
  if literal.rule = .number then
    if (Binary64.parse? literal.text.toList).any Binary64.isFinite then none
    else some (.invalidNumber span literal.text)
  else
    let suffix := literal.text.toList.dropWhile fun c => c.isDigit || c == '.'
    if isUnitSuffix suffix then none
    else some (.unrecognizedUnit span
      (.unrecognizedUnit "byte size" (String.ofList suffix) literal.text))

open Lexeme in
theorem isUnitSuffix_eq {suffix : List Char} (h : IsSuffix suffix) :
    isUnitSuffix suffix = ((UnitFamily.named? suffix : Option ByteUnit).isSome ||
      (UnitFamily.named? suffix : Option TimeUnit).isSome) := by
  have htrim : Text.trim suffix = suffix :=
    Text.trim_of_forall fun c hc => Text.isBlank_of_isAlpha (h.letters c hc)
  rw [isUnitSuffix, List.any_append, List.any_map, List.any_map, UnitFamily.named?,
    UnitFamily.named?, htrim, List.isSome_find?, List.isSome_find?]
  rfl

namespace Grammar

open Node Lexeme

variable {source : List Char} {ls : List Lexeme} {node : Node} {span : Span}

/-- A number has a token exactly when it is finite. -/
theorem numeral_decided (source : List Char) (span : Span) {l : Lexeme} (hkind : l.kind = .number)
    (hshape : l.WellShaped) :
    Decided [refusal? span (leaf source .number l)] (fun _ => True)
      (numeral span (leaf source .number l)) := by
  have htext : (leaf source .number l).text.toList = l.text := by
    simp [leaf, Lexeme.content]
  have hnumber : IsNumber (leaf source .number l).text.toList := by
    rw [htext]
    exact hshape.number hkind
  have hfinite := Numeral.parse?_isSome hnumber
  have htrim : Text.trimmed (leaf source .number l).text = (leaf source .number l).text :=
    Text.trimmed_of_trim (Text.trim_of_forall hnumber.not_blank)
  have hrule : (leaf source .number l).rule = .number := rfl
  rw [numeral, refusal?, if_pos hrule, ← hfinite, htrim]
  cases Numeral.parse? (leaf source .number l).text with
  | none => exact Decided.error _ _
  | some n => exact Decided.allowed trivial

section Quantities

variable {U : Type} [UnitFamily U] {l : Lexeme} {number suffix : List Char}

theorem trimmed_of_isUnitLiteral (h : IsUnitLiteral l.text) (rule : Rule) :
    Text.trimmed (leaf source rule l).text = l.content := by
  have htrim : Text.trim l.content.toList = l.content.toList := by
    rw [Lexeme.content, String.toList_ofList]
    exact Text.trim_of_forall h.not_blank
  exact Text.trimmed_of_trim htrim

theorem quantity_of_named (source : List Char) (span : Span) {u : U} (htext : l.text = number ++ suffix)
    (hnumber : IsDecimal number) (hsuffix : IsSuffix suffix)
    (hu : UnitFamily.named? suffix = some u) (rule : Rule) :
    ∃ value, Binary64.parse? number = some value ∧
      quantity span (leaf source rule l) = .ok ⟨l.content, value, u⟩ := by
  obtain ⟨value, hvalue, hparse⟩ := Quantity.parse_literal (U := U) hnumber hsuffix
  refine ⟨value, hvalue, ?_⟩
  rw [quantity, trimmed_of_isUnitLiteral ⟨number, suffix, htext, hnumber, hsuffix⟩, Lexeme.content,
    htext, hparse, hu]
  rfl

theorem quantity_of_unnamed (source : List Char) (span : Span) (htext : l.text = number ++ suffix)
    (hnumber : IsDecimal number) (hsuffix : IsSuffix suffix)
    (hu : (UnitFamily.named? suffix : Option U) = none) (rule : Rule) :
    (quantity span (leaf source rule l) : Except CompileError (Quantity U)) =
      .error (.unrecognizedUnit span (.unrecognizedUnit (UnitFamily.kind U) (String.ofList suffix)
        l.content)) := by
  obtain ⟨value, hvalue, hparse⟩ := Quantity.parse_literal (U := U) hnumber hsuffix
  rw [quantity, trimmed_of_isUnitLiteral ⟨number, suffix, htext, hnumber, hsuffix⟩, Lexeme.content,
    htext, hparse, hu]
  rfl

theorem dropWhile_literal (hnumber : IsDecimal number) (hsuffix : IsSuffix suffix) :
    (number ++ suffix).dropWhile (fun c => c.isDigit || c == '.') = suffix := by
  apply Text.dropWhile_append_of_stopsAt
  · intro c hc
    rcases hnumber.mem hc with hdigit | rfl
    · rw [hdigit, Bool.true_or]
    · rfl
  · apply Text.stopsAt_of_forall
    intro c hc
    have hletter := hsuffix.letters c hc
    rw [Text.isDigit_eq_false_of_isAlpha hletter, Bool.false_or, beq_eq_false_iff_ne]
    rintro rfl
    exact absurd hletter (by decide)

theorem refusal?_quantity {rule : Rule} (hrule : rule ≠ .number) (htext : l.text = number ++ suffix)
    (hnumber : IsDecimal number) (hsuffix : IsSuffix suffix) :
    refusal? span (leaf source rule l) = if isUnitSuffix suffix then none
      else some (.unrecognizedUnit span
        (.unrecognizedUnit "byte size" (String.ofList suffix) l.content)) := by
  have hcontent : (leaf source rule l).text.toList = number ++ suffix := by
    rw [← htext]
    exact String.toList_ofList
  have hne : (leaf source rule l).rule ≠ .number := hrule
  simp only [refusal?, if_neg hne, hcontent, dropWhile_literal hnumber hsuffix]
  rfl

/-- A quantity has a token exactly when its letters are the symbol of a unit. The rule of its node was
chosen by the same letters, so no duration is read as a size. -/
theorem quantity_decided {l : Lexeme} (hkind : l.kind = .unitLiteral) (hshape : l.WellShaped) :
    Decided [refusal? span (leaf source (unitRule l.text) l)] (fun t => t.kind ≠ .directiveName)
      (token span (leaf source (unitRule l.text) l)) := by
  obtain ⟨number, suffix, htext, hnumber, hsuffix⟩ := hshape.unitLiteral hkind
  have hrule : unitRule l.text =
      if (UnitFamily.named? suffix : Option TimeUnit).isSome then .timeDuration else .byteSize := by
    rw [unitRule, htext, dropWhile_literal hnumber hsuffix]
  have hunits := isUnitSuffix_eq hsuffix
  cases htime : (UnitFamily.named? suffix : Option TimeUnit) with
  | some u =>
      rw [htime] at hrule hunits
      rw [hrule, Option.isSome_some, if_pos rfl,
        refusal?_quantity (by decide) htext hnumber hsuffix, hunits, Option.isSome_some, Bool.or_true,
        if_pos rfl]
      obtain ⟨value, -, hquantity⟩ :=
        quantity_of_named source span htext hnumber hsuffix htime .timeDuration
      have htoken : token span (leaf source .timeDuration l) =
          (quantity span (leaf source .timeDuration l)).map .timeDuration := rfl
      rw [htoken, hquantity]
      exact Decided.allowed (by simp [Token.kind])
  | none =>
      rw [htime] at hrule hunits
      rw [hrule, Option.isSome_none, if_neg (by decide),
        refusal?_quantity (by decide) htext hnumber hsuffix, hunits, Option.isSome_none,
        Bool.or_false]
      have htoken : token span (leaf source .byteSize l) =
          (quantity span (leaf source .byteSize l)).map .byteSize := rfl
      rw [htoken]
      cases hbyte : (UnitFamily.named? suffix : Option ByteUnit) with
      | some u =>
          obtain ⟨value, -, hquantity⟩ :=
            quantity_of_named source span htext hnumber hsuffix hbyte .byteSize
          rw [Option.isSome_some, if_pos rfl, hquantity]
          exact Decided.allowed (by simp [Token.kind])
      | none =>
          have hquantity := quantity_of_unnamed source span htext hnumber hsuffix hbyte .byteSize
          rw [Option.isSome_none, if_neg (by decide), hquantity]
          exact Decided.error _ _

end Quantities

/-- The nodes of phrases, each with the lexemes that it was made from. -/
theorem Separated.forall_mem {separator : List Lexeme → Prop} {phrase : Phrase} {nodes : List Node}
    (h : Separated separator phrase ls nodes) :
    ∀ node ∈ nodes, ∃ part, phrase part node ∧ part.Sublist ls := by
  induction h with
  | one hfirst =>
      intro node hnode
      rw [List.mem_singleton.mp hnode]
      exact ⟨_, hfirst, List.Sublist.refl _⟩
  | cons hfirst _ _ ih =>
      intro node hnode
      rcases List.mem_cons.mp hnode with rfl | hnode
      · exact ⟨_, hfirst, List.sublist_append_left _ _⟩
      · obtain ⟨part, hpart, hsub⟩ := ih node hnode
        exact ⟨part, hpart, (hsub.trans (List.sublist_append_right _ _)).trans
          (List.sublist_append_right _ _)⟩

theorem childrenBy_of_forall {rule : Rule} (h : ∀ child ∈ node.children, child.rule = rule) :
    node.childrenBy rule = node.children := by
  refine List.filter_eq_self.mpr ?_
  intro child hchild
  simpa using h child hchild

theorem numericRange_of_children {low high label : Node} (h : node.children = [low, high, label]) :
    numericRange span node = (low.numeral span >>= fun first =>
      (high.numeral span).map fun last => ⟨first, last, label.unquotedText⟩) := by
  unfold numericRange
  simp only [h]
  generalize low.numeral span = first, high.numeral span = last
  cases first with
  | error e => rfl
  | ok first => cases last <;> rfl

theorem propertyEntry_of_children {key value : Node} (h : node.children = [key, value]) :
    propertyEntry span node =
      (value.propertyValue span).map fun token => (key.unquotedText, token) := by
  rw [propertyEntry, h]

theorem numericRange_decided (h : Range source ls node) (hshapes : ∀ l ∈ ls, l.WellShaped) :
    Decided ((node.children.take 2).map (refusal? span)) (fun _ => True) (numericRange span node) := by
  cases h with
  | @intro low colon high equals label rule hlow _ hhigh =>
      have hlow := numeral_decided source span hlow (hshapes low (by simp))
      have hhigh := numeral_decided source span hhigh (hshapes high (by simp))
      rw [numericRange_of_children rfl]
      exact hlow.bind fun low _ => hhigh.map fun high _ => trivial

theorem propertyEntry_decided (h : Property source ls node) (hshapes : ∀ l ∈ ls, l.WellShaped) :
    Decided (((node.children.drop 1).filter fun v => v.rule == .number).map (refusal? span))
      (fun _ => True) (propertyEntry span node) := by
  cases h with
  | @intro key equals value keyRule valueRule _ _ hvalue =>
      rw [propertyEntry_of_children rfl]
      simp only [List.mem_cons, Prod.mk.injEq, List.not_mem_nil, or_false] at hvalue
      rcases hvalue with ⟨hkind, rfl⟩ | ⟨-, rfl⟩ | ⟨-, rfl⟩ | ⟨-, rfl⟩
      · have hnumeral := numeral_decided source span hkind (hshapes value (by simp))
        have hread : propertyValue span (leaf source .number value) =
            (numeral span (leaf source .number value)).map .numeric := rfl
        rw [hread]
        exact (hnumeral.map (Q := fun _ => True) fun n _ => trivial).map fun t _ => trivial
      · exact Decided.ok trivial
      · exact Decided.ok trivial
      · exact Decided.ok trivial

theorem rule_of_mem_singles {kind : Lexeme.Kind} {rule : Rule} {nodes : List Node}
    (h : Separated Comma (Single source kind rule) ls nodes) : ∀ n ∈ nodes, n.rule = rule := by
  intro n hn
  obtain ⟨part, ⟨l, -, -, rfl⟩, -⟩ := h.forall_mem n hn
  rfl

/-- A list of numbers, or a single one. -/
theorem numbers_decided {nodes : List Node}
    (h : Separated Comma (Single source .number .number) ls nodes)
    (hshapes : ∀ l ∈ ls, l.WellShaped) :
    Decided ((itemsNode source .numberList nodes).literals.map (refusal? span))
      (fun t => t.kind ≠ .directiveName) (token span (itemsNode source .numberList nodes)) := by
  have hnumerals : ∀ n ∈ nodes, Decided [refusal? span n] (fun _ => True) (numeral span n) := by
    intro n hn
    obtain ⟨part, ⟨l, rfl, hkind, rfl⟩, hsub⟩ := h.forall_mem n hn
    exact numeral_decided source span hkind (hshapes l (hsub.subset List.mem_cons_self))
  have hlist : Decided (nodes.map (refusal? span)) (fun t => t.kind ≠ .directiveName)
      (token span (coverNodes source .numberList nodes)) := by
    have hread : token span (coverNodes source .numberList nodes) =
        (((coverNodes source .numberList nodes).childrenBy .number).mapM (numeral span)).map
          .numericList := rfl
    have hchildren : (coverNodes source .numberList nodes).childrenBy .number = nodes :=
      childrenBy_of_forall (rule_of_mem_singles h)
    rw [hread, hchildren, List.map_eq_flatMap]
    exact (Decided.mapM hnumerals).map fun ns _ => by simp [Token.kind]
  cases h with
  | @one _ n hfirst =>
      obtain ⟨l, rfl, -, rfl⟩ := hfirst
      have hread : token span (leaf source .number l) =
          (numeral span (leaf source .number l)).map .numeric := rfl
      change Decided [refusal? span (leaf source .number l)] _ (token span (leaf source .number l))
      rw [hread]
      exact (hnumerals _ List.mem_cons_self).map fun n _ => by simp [Token.kind]
  | cons _ _ hmore => cases hmore <;> exact hlist

/-- Columns, texts and booleans are never refused. -/
theorem plainItems_decided {kind : Lexeme.Kind} {itemRule listRule : Rule} {nodes : List Node}
    (hrules : (kind, itemRule, listRule) ∈ listRules) (hne : kind ≠ .number)
    (h : Separated Comma (Single source kind itemRule) ls nodes) :
    Decided ((itemsNode source listRule nodes).literals.map (refusal? span))
      (fun t => t.kind ≠ .directiveName) (token span (itemsNode source listRule nodes)) := by
  obtain ⟨first, taken, more, rfl, -, rfl, -⟩ := items_complete ⟨0, none⟩ h stops_nil
  simp only [listRules, List.mem_cons, Prod.mk.injEq, List.not_mem_nil, or_false] at hrules
  rcases hrules with ⟨rfl, rfl, rfl⟩ | ⟨rfl, rfl, rfl⟩ | ⟨rfl, rfl, rfl⟩ | ⟨rfl, -⟩
  · cases more <;> exact Decided.ok (by simp [Token.kind])
  · cases more <;> exact Decided.ok (by simp [Token.kind])
  · cases more <;> exact Decided.ok (by simp [Token.kind])
  · exact absurd rfl hne

theorem ranges_decided {nodes : List Node} (h : Separated Comma (Range source) ls nodes)
    (hshapes : ∀ l ∈ ls, l.WellShaped) :
    Decided ((coverNodes source .rangeList nodes).literals.map (refusal? span))
      (fun t => t.kind ≠ .directiveName) (token span (coverNodes source .rangeList nodes)) := by
  have hread : token span (coverNodes source .rangeList nodes) =
      (((coverNodes source .rangeList nodes).childrenBy .range).mapM (numericRange span)).map
        .ranges := rfl
  have hchildren : (coverNodes source .rangeList nodes).childrenBy .range = nodes := by
    refine childrenBy_of_forall fun n hn => ?_
    obtain ⟨part, hpart, -⟩ := h.forall_mem n hn
    cases hpart
    rfl
  have hliterals : (coverNodes source .rangeList nodes).literals =
      nodes.flatMap fun range => range.children.take 2 := rfl
  rw [hread, hchildren, hliterals, List.map_flatMap]
  refine (Decided.mapM (Q := fun _ => True) fun n hn => ?_).map fun rs _ => by simp [Token.kind]
  obtain ⟨part, hpart, hsub⟩ := h.forall_mem n hn
  exact numericRange_decided hpart fun l hl => hshapes l (hsub.subset hl)

theorem properties_decided {name block : Lexeme} {nodes : List Node} (h : Properties source ls nodes)
    (hshapes : ∀ l ∈ ls, l.WellShaped) :
    Decided ((coverLexemes source .propertyList name [block] nodes).literals.map (refusal? span))
      (fun t => t.kind ≠ .directiveName)
      (token span (coverLexemes source .propertyList name [block] nodes)) := by
  have hparts : ∀ n ∈ nodes, ∃ part, Property source part n ∧ part.Sublist ls := by
    cases h with
    | none => exact List.forall_mem_nil _
    | some _ hentries _ =>
        intro n hn
        obtain ⟨part, hpart, hsub⟩ := hentries.forall_mem n hn
        exact ⟨part, hpart,
          (hsub.trans (List.sublist_append_left _ _)).trans (List.sublist_append_right _ _)⟩
  have hread : token span (coverLexemes source .propertyList name [block] nodes) =
      (((coverLexemes source .propertyList name [block] nodes).childrenBy .property).mapM
        (propertyEntry span)).map fun entries => .properties (Entries.ofList entries) := rfl
  have hchildren :
      (coverLexemes source .propertyList name [block] nodes).childrenBy .property = nodes := by
    refine childrenBy_of_forall fun n hn => ?_
    obtain ⟨part, hpart, -⟩ := hparts n hn
    cases hpart
    rfl
  have hliterals : (coverLexemes source .propertyList name [block] nodes).literals =
      nodes.flatMap fun entry => (entry.children.drop 1).filter fun v => v.rule == .number := rfl
  rw [hread, hchildren, hliterals, List.map_flatMap]
  refine (Decided.mapM (Q := fun _ => True) fun n hn => ?_).map fun entries _ => by simp [Token.kind]
  obtain ⟨part, hpart, hsub⟩ := hparts n hn
  exact propertyEntry_decided hpart fun l hl => hshapes l (hsub.subset hl)

/-- Arguments are refused for their literals only, and none of them is the name of a directive. -/
theorem argument_decided (h : Argument source ls node) (hshapes : ∀ l ∈ ls, l.WellShaped) :
    Decided (node.literals.map (refusal? span)) (fun t => t.kind ≠ .directiveName)
      (token span node) := by
  cases h with
  | @list kind itemRule listRule _ nodes hrules hitems =>
      by_cases hnumber : kind = .number
      · subst hnumber
        obtain ⟨rfl, rfl⟩ : itemRule = .number ∧ listRule = .numberList := by
          simpa [listRules] using hrules
        exact numbers_decided hitems hshapes
      · exact plainItems_decided hrules hnumber hitems
  | ranges hranges => exact ranges_decided hranges hshapes
  | @quantity l hkind =>
      have hliterals : (leaf source (unitRule l.text) l).literals =
          [leaf source (unitRule l.text) l] := literals_quantity l
      rw [hliterals]
      exact quantity_decided hkind (hshapes l List.mem_cons_self)
  | block => exact Decided.ok (by simp [Token.kind])
  | name => exact Decided.ok (by simp [Token.kind])
  | expression => exact Decided.ok (by simp [Token.kind])
  | properties _ _ _ _ hinner hentries =>
      exact properties_decided hentries (Lexeme.scan_wellShaped _ _ _ hinner)

theorem arguments_decided (span : Span) {nodes : List Node} (h : Arguments source ls nodes)
    (hshapes : ∀ l ∈ ls, l.WellShaped) :
    Decided ((nodes.flatMap literals).map (refusal? span))
      (fun ts => ∀ t ∈ ts, t.kind ≠ .directiveName) (nodes.mapM (token span)) := by
  have hmem : ∀ n ∈ nodes, ∃ part, Argument source part n ∧ part.Sublist ls := by
    induction h with
    | nil => exact List.forall_mem_nil _
    | cons hfirst _ ih =>
        obtain ih := ih fun l hl => hshapes l (List.mem_append_right _ hl)
        refine List.forall_mem_cons.mpr ⟨⟨_, hfirst, List.sublist_append_left _ _⟩, ?_⟩
        intro n hn
        obtain ⟨part, hpart, hsub⟩ := ih n hn
        exact ⟨part, hpart, hsub.trans (List.sublist_append_right _ _)⟩
  rw [List.map_flatMap]
  refine Decided.mapM fun n hn => ?_
  obtain ⟨part, hpart, hsub⟩ := hmem n hn
  exact argument_decided hpart fun l hl => hshapes l (hsub.subset hl)

end Grammar

end RowRecipe
