import RowRecipe.Proofs.Lexeme.Shapes
import RowRecipe.Proofs.Tree.Acceptance

/-!
The literals of a recipe: the numbers and the unit literals that its tokens have values of. Each is
the leaf of a lexeme, and they come in the order in which they stand in the text.
-/

namespace RowRecipe

namespace Node

/-- The literals of an argument. The label of a range is none of them, since it stays text. -/
def literals (node : Node) : List Node :=
  match node.rule with
  | .number | .byteSize | .timeDuration => [node]
  | .numberList => node.children
  | .rangeList => node.children.flatMap fun range => range.children.take 2
  | .propertyList =>
      node.children.flatMap fun entry => (entry.children.drop 1).filter fun v => v.rule == .number
  | _ => []

/-- The literals of all directives, each with the place of its directive. -/
def directiveLiterals (tree : Node) : List (Span × Node) :=
  (tree.childrenBy .directive).flatMap fun directive =>
    (directive.children.flatMap literals).map fun literal => (directive.span, literal)

end Node

namespace Grammar

open Node

variable {source : List Char} {ls : List Lexeme} {node : Node}

/-- The nodes start where some of the lexemes do, in the order of these. -/
def StartIn (ls : List Lexeme) (nodes : List Node) : Prop :=
  (nodes.map fun n => n.start.offset).Sublist (ls.map Lexeme.start)

namespace StartIn

theorem nil (ls : List Lexeme) : StartIn ls [] :=
  List.nil_sublist _

theorem leaf (rule : Rule) (l : Lexeme) : StartIn [l] [leaf source rule l] :=
  List.Sublist.refl _

theorem append {more : List Lexeme} {nodes others : List Node} (h : StartIn ls nodes)
    (hmore : StartIn more others) : StartIn (ls ++ more) (nodes ++ others) := by
  unfold StartIn
  rw [List.map_append, List.map_append]
  exact List.Sublist.append h hmore

theorem mono {more : List Lexeme} {nodes : List Node} (h : StartIn ls nodes)
    (hsub : ls.Sublist more) : StartIn more nodes :=
  List.Sublist.trans h (hsub.map _)

end StartIn

theorem Separated.startIn {separator : List Lexeme → Prop} {phrase : Phrase} {nodes : List Node}
    {parts : Node → List Node} (h : Separated separator phrase ls nodes)
    (hphrase : ∀ {ls node}, phrase ls node → StartIn ls (parts node)) :
    StartIn ls (nodes.flatMap parts) := by
  induction h with
  | one hfirst =>
      rw [List.flatMap_cons, List.flatMap_nil, List.append_nil]
      exact hphrase hfirst
  | cons hfirst _ _ ih =>
      rw [List.flatMap_cons]
      exact (hphrase hfirst).append (ih.mono (List.sublist_append_right _ _))

theorem Single.startIn {kind : Lexeme.Kind} {rule : Rule} (h : Single source kind rule ls node) :
    StartIn ls [node] := by
  obtain ⟨l, rfl, -, rfl⟩ := h
  exact .leaf rule l

theorem Range.startIn (h : Range source ls node) : StartIn ls (node.children.take 2) := by
  cases h with
  | intro => exact .cons_cons _ (.cons _ (.cons_cons _ (List.nil_sublist _)))

theorem Property.startIn (h : Property source ls node) :
    StartIn ls ((node.children.drop 1).filter fun v => v.rule == .number) := by
  cases h with
  | @intro key equals value keyRule valueRule =>
      have hvalue : StartIn [key, equals, value] [Node.leaf source valueRule value] :=
        .cons _ (.cons _ (List.Sublist.refl _))
      exact (List.filter_sublist.map _).trans hvalue

theorem Properties.startIn {nodes : List Node} (h : Properties source ls nodes) :
    StartIn ls (nodes.flatMap fun entry =>
      (entry.children.drop 1).filter fun v => v.rule == .number) := by
  cases h with
  | none => exact .nil ls
  | some _ hentries _ =>
      refine (hentries.startIn Property.startIn).mono ?_
      exact (List.sublist_append_left _ _).trans (List.sublist_append_right _ _)

theorem literals_quantity (l : Lexeme) : (Node.leaf source (unitRule l.text) l).literals =
    [Node.leaf source (unitRule l.text) l] := by
  simp only [unitRule]
  split <;> rfl

/-- The literals of an argument start where lexemes of it do, or lexemes inside a block of it. -/
theorem Argument.startIn (h : Argument source ls node) : StartIn ls node.literals ∨
    ∃ block inner, block ∈ ls ∧ block.kind = .block ∧
      Lexeme.scan (block.text.drop 1).dropLast (block.start + 1) = .ok inner ∧
      StartIn inner node.literals := by
  have hnone : node.literals = [] → StartIn ls node.literals := by
    intro hnil
    rw [hnil]
    exact .nil ls
  cases h with
  | @list kind itemRule listRule _ nodes hrules hitems =>
      left
      have hleaves := hitems.startIn Single.startIn
      rw [List.flatMap_singleton' nodes] at hleaves
      simp only [listRules, List.mem_cons, Prod.mk.injEq, List.not_mem_nil, or_false] at hrules
      obtain ⟨first, taken, more, rfl, -, rfl, -⟩ := items_complete ⟨0, none⟩ hitems stops_nil
      rcases hrules with ⟨rfl, rfl, rfl⟩ | ⟨rfl, rfl, rfl⟩ | ⟨rfl, rfl, rfl⟩ | ⟨rfl, rfl, rfl⟩
      · cases more <;> exact hnone rfl
      · cases more <;> exact hnone rfl
      · cases more <;> exact hnone rfl
      · cases more <;> exact hleaves
  | ranges hranges => exact .inl (hranges.startIn Range.startIn)
  | @quantity l _ =>
      left
      rw [literals_quantity]
      exact .leaf _ l
  | block => exact .inl (hnone rfl)
  | name => exact .inl (hnone rfl)
  | expression => exact .inl (hnone rfl)
  | @properties name colon block inner nodes _ _ _ hblock hinner hentries =>
      exact .inr ⟨block, inner, by simp, hblock, hinner, hentries.startIn⟩

/-- The nodes start inside of lexemes, one after the other. -/
structure InOrder (ls : List Lexeme) (nodes : List Node) : Prop where
  inside : ∀ n ∈ nodes, ∃ l ∈ ls, l.start ≤ n.start.offset ∧ n.start.offset < l.stop
  ordered : nodes.Pairwise fun a b => a.start.offset < b.start.offset

namespace InOrder

theorem nil (ls : List Lexeme) : InOrder ls [] :=
  ⟨List.forall_mem_nil _, .nil⟩

theorem append {more : List Lexeme} {nodes others : List Node}
    (hlaid : Lexeme.Laid source (ls ++ more)) (h : InOrder ls nodes) (hmore : InOrder more others) :
    InOrder (ls ++ more) (nodes ++ others) := by
  constructor
  · intro n hn
    rcases List.mem_append.mp hn with hn | hn
    · obtain ⟨l, hl, hbounds⟩ := h.inside n hn
      exact ⟨l, List.mem_append_left more hl, hbounds⟩
    · obtain ⟨l, hl, hbounds⟩ := hmore.inside n hn
      exact ⟨l, List.mem_append_right ls hl, hbounds⟩
  · refine List.pairwise_append.mpr ⟨h.ordered, hmore.ordered, ?_⟩
    intro a ha b hb
    obtain ⟨l, hl, -, hstop⟩ := h.inside a ha
    obtain ⟨l', hl', hstart, -⟩ := hmore.inside b hb
    have hle := hlaid.stop_le_start hl hl'
    omega

/-- Lexemes stand one after the other, so nodes that start with them do. -/
theorem of_startIn {nodes : List Node} (hlaid : Lexeme.Laid source ls) (h : StartIn ls nodes) :
    InOrder ls nodes := by
  have hstarts : (ls.map Lexeme.start).Pairwise (· < ·) := by
    rw [List.pairwise_map]
    refine hlaid.ordered.imp_of_mem ?_
    intro a b ha _ hle
    have hlt := Lexeme.start_lt_stop (hlaid.lie a ha)
    omega
  constructor
  · intro n hn
    obtain ⟨l, hl, hstart⟩ := List.mem_map.mp (h.subset (List.mem_map_of_mem hn))
    have hlt := Lexeme.start_lt_stop (hlaid.lie l hl)
    exact ⟨l, hl, by omega, by omega⟩
  · exact List.pairwise_map.mp (hstarts.sublist h)

/-- What stands in order inside a block does so in any lexemes with that block. -/
theorem of_inner {inner : List Lexeme} {block : Lexeme} {nodes : List Node}
    (h : InOrder inner nodes) (hblock : block ∈ ls)
    (hinner : ∀ l ∈ inner, block.start ≤ l.start ∧ l.stop ≤ block.stop) : InOrder ls nodes := by
  refine ⟨fun n hn => ?_, h.ordered⟩
  obtain ⟨l, hl, hstart, hstop⟩ := h.inside n hn
  have hbounds := hinner l hl
  exact ⟨block, hblock, by omega, by omega⟩

end InOrder

theorem Argument.inOrder (h : Argument source ls node) (hlaid : Lexeme.Laid source ls) :
    InOrder ls node.literals := by
  rcases h.startIn with hstarts | ⟨block, inner, hmem, hblock, hinner, hstarts⟩
  · exact .of_startIn hlaid hstarts
  · obtain ⟨hinnerLaid, hbounds⟩ := Lexeme.laid_inner (hlaid.lie block hmem) hblock hinner
    exact (InOrder.of_startIn hinnerLaid hstarts).of_inner hmem hbounds

theorem Arguments.inOrder {nodes : List Node} (h : Arguments source ls nodes)
    (hlaid : Lexeme.Laid source ls) : InOrder ls (nodes.flatMap literals) := by
  induction h with
  | nil => exact .nil []
  | cons hfirst _ ih =>
      rw [List.flatMap_cons]
      exact .append hlaid (hfirst.inOrder hlaid.left) (ih hlaid.right)

theorem Item.inOrder (h : Item source ls node) (hlaid : Lexeme.Laid source ls)
    (hdirective : node.rule = .directive) : InOrder ls (node.children.flatMap literals) := by
  cases h with
  | loadables => cases hdirective
  | version => cases hdirective
  | @directive ls more name arguments hname harguments =>
      have hnone : name.literals = [] := by
        cases hname <;> rfl
      change InOrder (ls ++ more) ((name :: arguments).flatMap literals)
      rw [List.flatMap_cons, hnone]
      exact .append hlaid (.nil ls) (harguments.inOrder hlaid.right)

theorem items_inOrder {runs : List (List Lexeme)} {nodes : List Node}
    (h : List.Forall₂ (Item source) runs nodes) (hlaid : Lexeme.Laid source runs.flatten) :
    InOrder runs.flatten
      ((nodes.filter fun n => n.rule == .directive).flatMap fun n => n.children.flatMap literals) := by
  induction h with
  | nil => exact .nil []
  | @cons run node runs nodes hitem _ ih =>
      rw [List.flatten_cons] at hlaid ⊢
      have hmore := ih hlaid.right
      by_cases hdirective : node.rule = .directive
      · rw [List.filter_cons_of_pos (by simpa using hdirective), List.flatMap_cons]
        exact .append hlaid (hitem.inOrder hlaid.left hdirective) hmore
      · rw [List.filter_cons_of_neg (by simpa using hdirective)]
        exact .append hlaid (.nil run) hmore

end Grammar

namespace Node

/-- The literals of a recipe are listed in the order in which they stand in its text. -/
theorem directiveLiterals_ordered {source : String} {tree : Node} (h : parse source = .ok tree) :
    tree.directiveLiterals.Pairwise fun a b => a.2.start.offset < b.2.start.offset := by
  obtain ⟨ls, hscan, hitems, -⟩ := ofSource_eq_ok.mp (parse_eq_ok.mp h)
  have hlaid : Lexeme.Laid source.toList ls := Lexeme.laid_of_scan_zero hscan
  have hordered := (Grammar.items_inOrder hitems
    (hlaid.sublist (Grammar.flatten_runs_sublist ls))).ordered
  have hliterals : tree.directiveLiterals.map Prod.snd =
      (tree.childrenBy .directive).flatMap fun n => n.children.flatMap literals := by
    rw [directiveLiterals, List.map_flatMap]
    refine List.flatMap_congr fun n _ => ?_
    rw [List.map_map]
    exact List.map_id _
  rw [← List.pairwise_map (f := Prod.snd) (R := fun a b : Node => a.start.offset < b.start.offset),
    hliterals]
  exact hordered

end Node

end RowRecipe
