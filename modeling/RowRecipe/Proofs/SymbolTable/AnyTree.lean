import RowRecipe.Proofs.SymbolTable.Visits

/-!
Compiling a tree of any shape. Not only trees that were read from a text can be compiled. The first
node that is at fault is reported, and when there is none every directive has its group.
-/

namespace RowRecipe

open Outcome

namespace Node

variable (span : Span) (node : Node)

theorem numeral_decided : Decided [numberFault? span node] (fun _ => True) (node.numeral span) := by
  rw [numeral, numberFault?]
  cases Numeral.parse? node.text with
  | none => exact Decided.error _ _
  | some n => exact Decided.allowed trivial

theorem quantity_decided {U : Type} [UnitFamily U] :
    Decided [quantityFault? U span node] (fun _ => True)
      (node.quantity span : Except CompileError (Quantity U)) := by
  rw [quantity, quantityFault?]
  cases (Quantity.parse (Text.trimmed node.text) : Except UnitError (Quantity U)) with
  | ok q => exact Decided.allowed trivial
  | error e => exact Decided.error _ _

theorem propertyValue_decided :
    Decided [Visit.fault? ⟨span, .value, node⟩] (fun _ => True) (node.propertyValue span) := by
  simp only [propertyValue, Visit.fault?]
  cases node.rule <;> simp only
  case number => exact (numeral_decided span node).map fun _ _ => trivial
  case bool | text | identifier => exact Decided.allowed trivial
  all_goals exact Decided.error _ _

theorem propertyEntry_decided :
    Decided ((⟨span, .property, node⟩ :: (node.children.drop 1).map (Visit.mk span .value)).map
      Visit.fault?) (fun _ => True) (node.propertyEntry span) := by
  have hfault : Visit.fault? ⟨span, .property, node⟩ = if node.children.length = 2 then none
      else some (.malformedTree span (.propertyParts node.text)) := rfl
  rw [List.map_cons, hfault]
  by_cases hparts : node.children.length = 2
  · obtain ⟨key, value, hchildren⟩ := List.length_eq_two.mp hparts
    rw [if_pos hparts, Grammar.propertyEntry_of_children hchildren, hchildren]
    exact ((propertyValue_decided span value).map fun _ _ => trivial).unrefused
  · rw [if_neg hparts, propertyEntry]
    split
    · next hchildren => exact absurd (congrArg List.length hchildren) hparts
    · exact Decided.refused _ _ _

theorem numericRange_decided :
    Decided ((⟨span, .range, node⟩ :: (node.children.take 2).map (Visit.mk span .number)).map
      Visit.fault?) (fun _ => True) (node.numericRange span) := by
  have hfault : Visit.fault? ⟨span, .range, node⟩ = if node.children.length = 3 then none
      else some (.malformedTree span (.rangeParts node.text)) := rfl
  rw [List.map_cons, hfault]
  by_cases hparts : node.children.length = 3
  · obtain ⟨low, high, label, hchildren⟩ := List.length_eq_three.mp hparts
    rw [if_pos hparts, Grammar.numericRange_of_children hchildren, hchildren]
    have hbounds := (numeral_decided span low).bind fun first _ =>
      (numeral_decided span high).map (g := fun last => NumericRange.mk first last label.unquotedText)
        (Q := fun _ => True) fun _ _ => trivial
    exact hbounds.unrefused
  · rw [if_neg hparts, numericRange]
    split
    · next hchildren => exact absurd (congrArg List.length hchildren) hparts
    · exact Decided.refused _ _ _

theorem token_decided :
    Decided ((node.argumentVisits span).map Visit.fault?) (fun _ => True) (node.token span) := by
  rw [argumentVisits, List.map_cons, innerVisits, token]
  simp only [Visit.fault?]
  cases node.rule <;> simp only [Rule.tokenKind?]
  case number => exact (numeral_decided span node).map fun _ _ => trivial
  case byteSize => exact (quantity_decided span node).map fun _ _ => trivial
  case timeDuration => exact (quantity_decided span node).map fun _ _ => trivial
  case numberList =>
    rw [List.map_map, List.map_eq_flatMap]
    exact ((Decided.mapM fun child _ => numeral_decided span child).map fun _ _ => trivial).unrefused
  case propertyList =>
    rw [List.map_flatMap]
    exact ((Decided.mapM fun entry _ => propertyEntry_decided span entry).map fun _ _ =>
      trivial).unrefused
  case rangeList =>
    rw [List.map_flatMap]
    exact ((Decided.mapM fun range _ => numericRange_decided span range).map fun _ _ =>
      trivial).unrefused
  case recipe | directive | property | range | loadPragma | versionPragma => exact Decided.error _ _
  all_goals exact Decided.allowed trivial

theorem group_decided (node : Node) :
    Decided ((node.children.flatMap (argumentVisits node.span)).map Visit.fault?) (fun _ => True)
      node.group := by
  rw [group, List.map_flatMap]
  exact (Decided.mapM fun child _ => token_decided node.span child).map fun _ _ => trivial

/-- An argument has a token exactly when nothing is wrong with it and what is below it. -/
theorem converts_iff (span : Span) (node : Node) :
    node.Converts ↔ ∀ visit ∈ node.argumentVisits span, visit.fault? = none := by
  have hok := (token_decided span node).exists_ok_iff
  rw [List.forall_mem_map] at hok
  rw [← hok]
  constructor
  · rintro ⟨t, ht⟩
    exact ⟨t, ht span⟩
  · rintro ⟨t, ht⟩
    exact ⟨t, (gives_of_token ht).reads⟩

theorem itemFault?_eq_none_iff {place : Span} {node : Node} :
    Visit.fault? ⟨place, .item, node⟩ = none ↔ node.IsSentence := by
  simp only [Visit.fault?, IsSentence]
  cases node.rule <;> simp

theorem itemVisits_eq_none_iff (node : Node) :
    (∀ visit ∈ node.itemVisits, visit.fault? = none) ↔ node.IsSentence ∧
      (node.rule = .directive → ∀ child ∈ node.children, child.Converts) := by
  rw [itemVisits, List.forall_mem_cons, itemFault?_eq_none_iff]
  refine and_congr_right fun _ => ?_
  split
  · next hrule =>
      simp only [hrule, true_imp_iff, converts_iff node.span]
      exact List.forall_mem_flatMap
  · next hrule =>
      exact ⟨fun _ h => absurd h hrule, fun _ => List.forall_mem_nil _⟩

end Node

namespace SymbolTable

open Node Builder

/-- No group is open between two sentences. -/
def Builder.Idle (b : Builder) : Prop := ∃ groups names versions, b = state groups names versions

theorem addItem_decided {b : Builder} (hb : b.Idle) (node : Node) :
    Decided (node.itemVisits.map Visit.fault?) Builder.Idle (addItem b node) := by
  obtain ⟨groups, names, versions, rfl⟩ := hb
  rw [itemVisits, List.map_cons]
  by_cases hsentence : node.IsSentence
  · rw [itemFault?_eq_none_iff.mpr hsentence]
    refine Decided.unrefused ?_
    rcases hsentence with hrule | hrule | hrule
    · rw [if_pos hrule, addItem_state_directive groups names versions hrule]
      exact (group_decided node).map fun made _ => ⟨groups ++ [made], names, versions, rfl⟩
    · rw [if_neg (by rw [hrule]; decide), addItem_state_loadPragma groups names versions hrule]
      exact Decided.ok ⟨_, _, _, rfl⟩
    · rw [if_neg (by rw [hrule]; decide), addItem_state_versionPragma groups names versions hrule]
      exact Decided.ok ⟨_, _, _, rfl⟩
  · simp only [Visit.fault?, addItem]
    cases hrule : node.rule <;> simp only
    case directive => exact absurd (.inl hrule) hsentence
    case loadPragma => exact absurd (.inr (.inl hrule)) hsentence
    case versionPragma => exact absurd (.inr (.inr hrule)) hsentence
    all_goals exact Decided.refused _ _ _

theorem ofTree_visits (tree : Node) :
    Decided (tree.visits.map Visit.fault?) (fun _ => True) (ofTree tree) := by
  have hitems : ∀ (nodes : List Node) (b : Builder), b.Idle →
      Decided ((nodes.flatMap itemVisits).map Visit.fault?) Builder.Idle (nodes.foldlM addItem b) := by
    intro nodes
    induction nodes with
    | nil => exact fun b hb => Decided.ok hb
    | cons node rest ih =>
        intro b hb
        rw [List.flatMap_cons, List.map_append, List.foldlM_cons]
        exact (addItem_decided hb node).bind fun b' hb' => ih b' hb'
  exact (hitems tree.children _ ⟨[], [], [], rfl⟩).map fun _ _ => trivial

theorem exists_ofTree_iff (tree : Node) : (∃ table, ofTree tree = .ok table) ↔
    (∀ node ∈ tree.children, node.IsSentence) ∧
      ∀ directive ∈ tree.childrenBy .directive, ∀ child ∈ directive.children, child.Converts := by
  have hitems : (∀ visit ∈ tree.visits, visit.fault? = none) ↔
      ∀ item ∈ tree.children, ∀ visit ∈ item.itemVisits, visit.fault? = none :=
    List.forall_mem_flatMap
  rw [(ofTree_visits tree).exists_ok_iff, List.forall_mem_map, hitems]
  constructor
  · intro h
    refine ⟨fun node hnode => ((itemVisits_eq_none_iff node).mp (h node hnode)).1, ?_⟩
    intro directive hdirective
    obtain ⟨hmem, hrule⟩ := List.mem_filter.mp hdirective
    exact ((itemVisits_eq_none_iff directive).mp (h directive hmem)).2 (beq_iff_eq.mp hrule)
  · rintro ⟨hsentences, hconvert⟩ node hnode
    refine (itemVisits_eq_none_iff node).mpr ⟨hsentences node hnode, fun hrule => ?_⟩
    exact hconvert node (List.mem_filter.mpr ⟨hnode, beq_iff_eq.mpr hrule⟩)

/-- The groups of a table are those of the directives, and what the pragmas say is beside them. -/
theorem table_of_ofTree {tree : Node} {table : SymbolTable} (h : ofTree tree = .ok table) :
    List.Forall₂ (fun directive group => group.span = directive.span ∧
      List.Forall₂ Node.Gives directive.children group.tokens) (tree.childrenBy .directive)
        table.groups ∧
    table.loadables = (asked tree.children).eraseDups ∧
    table.version = (declared tree.children).getLast? := by
  have hsentences := ((exists_ofTree_iff tree).mp ⟨table, h⟩).1
  rw [ofTree_eq hsentences] at h
  obtain ⟨groups, hgroups, rfl⟩ := map_eq_ok.mp h
  refine ⟨(mapM_eq_ok.mp hgroups).imp fun directive made hmade => ?_, rfl, rfl⟩
  obtain ⟨tokens, htokens, rfl⟩ := map_eq_ok.mp hmade
  exact ⟨rfl, (mapM_eq_ok.mp htokens).imp fun child t => gives_of_token⟩

theorem ofTree_eq_error_iff {tree : Node} {e : CompileError} :
    ofTree tree = .error e ↔ ∃ before visit after, tree.visits = before ++ visit :: after ∧
      (∀ earlier ∈ before, earlier.fault? = none) ∧ visit.fault? = some e := by
  rw [(ofTree_visits tree).eq_error_iff, List.findSome?_map, List.findSome?_eq_some_iff]
  constructor
  · rintro ⟨before, visit, after, hvisits, hfault, hbefore⟩
    exact ⟨before, visit, after, hvisits, hbefore, hfault⟩
  · rintro ⟨before, visit, after, hvisits, hbefore, hfault⟩
    exact ⟨before, visit, after, hvisits, hfault, hbefore⟩

/-- Compiling any tree. It succeeds exactly when all children of the root are sentences and all children
of directives are arguments with a token. Then each directive has a group with its place and the tokens
of its children, the names in pragmas are collected once each as they come first, and the last version
counts. Otherwise the error is the first fault that there is from left to right and from a node to those
below it, for the place of the directive around it, or of the node itself if it is a child of the root.
No token is ever without a group. -/
theorem ofTree_exact (tree : Node) :
    ((∃ table, ofTree tree = .ok table) ↔ (∀ node ∈ tree.children, node.IsSentence) ∧
      ∀ directive ∈ tree.childrenBy .directive, ∀ child ∈ directive.children, child.Converts) ∧
    (∀ table, ofTree tree = .ok table →
      List.Forall₂ (fun directive group => group.span = directive.span ∧
        List.Forall₂ Node.Gives directive.children group.tokens) (tree.childrenBy .directive)
          table.groups ∧
      table.loadables = (asked tree.children).eraseDups ∧
      table.version = (declared tree.children).getLast?) ∧
    (∀ e, ofTree tree = .error e ↔ ∃ before visit after, tree.visits = before ++ visit :: after ∧
      (∀ earlier ∈ before, earlier.fault? = none) ∧ visit.fault? = some e) ∧
    (tree.visits.map Visit.node).Sublist tree.preorder ∧
    (∀ visit ∈ tree.visits, (∀ e, visit.fault? = some e → e.span? = some visit.place) ∧
      ∃ item ∈ tree.children, visit.place = item.span ∧ (visit.role = .item ∧ visit.node = item ∨
        item.rule = .directive ∧ visit.node ∈ item.children.flatMap preorder)) ∧
    ∀ span, ofTree tree ≠ .error (.malformedTree span .tokenOutsideDirective) := by
  refine ⟨exists_ofTree_iff tree, fun table => table_of_ofTree, fun e => ofTree_eq_error_iff,
    visits_sublist_preorder tree, fun visit hvisit => ?_, fun span h => ?_⟩
  · exact ⟨fun e he => (Visit.liesAt_of_fault? he).span, place_of_mem_visits hvisit⟩
  · obtain ⟨before, visit, after, -, -, hfault⟩ := ofTree_eq_error_iff.mp h
    exact (Visit.liesAt_of_fault? hfault).grouped span rfl

end SymbolTable

end RowRecipe
