import RowRecipe.Proofs.SymbolTable.Arguments

/-!
What is looked at when a tree is compiled. A tree may have any rules in any places. Its nodes are
looked at from left to right, each before those below it, and a node can be at fault for what it is
itself: for its rule where it stands, for its text, or for the count of its children.
-/

namespace RowRecipe

/-- What a node of a tree is looked at as. -/
inductive Role where
  /-- A child of the root. -/
  | item
  /-- A child of a directive. -/
  | argument
  /-- A number in a list or a bound of a range. -/
  | number
  | property
  /-- What a property sets its key to. -/
  | value
  | range
deriving DecidableEq

/-- A look at a node. An error that it finds is reported for the place. -/
structure Visit where
  place : Span
  role : Role
  node : Node

-- The two are irreducible, or unification would try to read the texts of variables.

/-- Why a number is refused. -/
@[irreducible] def numberFault? (place : Span) (node : Node) : Option CompileError :=
  if (Numeral.parse? node.text).isSome then none
  else some (.invalidNumber place (Text.trimmed node.text))

/-- Why a quantity of a family is refused. -/
@[irreducible] def quantityFault? (U : Type) [UnitFamily U] (place : Span) (node : Node) :
    Option CompileError :=
  match (Quantity.parse (Text.trimmed node.text) : Except UnitError (Quantity U)) with
  | .ok _ => none
  | .error e => some (.ofUnit place e)

/-- What is wrong with a node by itself, whatever may be wrong with those below it. -/
def Visit.fault? (visit : Visit) : Option CompileError :=
  let ⟨place, role, node⟩ := visit
  match role with
  | .item =>
      match node.rule with
      | .directive | .loadPragma | .versionPragma => none
      | rule => some (.malformedTree place (.notAtRecipeLevel rule))
  | .argument =>
      match node.rule.tokenKind? with
      | some .numeric => numberFault? place node
      | some .byteSize => quantityFault? ByteUnit place node
      | some .timeDuration => quantityFault? TimeUnit place node
      | some _ => none
      | none => some (.malformedTree place (.notAnArgument node.rule))
  | .number => numberFault? place node
  | .property =>
      if node.children.length = 2 then none
      else some (.malformedTree place (.propertyParts node.text))
  | .value =>
      match node.rule with
      | .number => numberFault? place node
      | .bool | .text | .identifier => none
      | rule => some (.malformedTree place (.notAPropertyValue rule))
  | .range =>
      if node.children.length = 3 then none
      else some (.malformedTree place (.rangeParts node.text))

namespace Node

/-- What is looked at below an argument. -/
def innerVisits (place : Span) (node : Node) : List Visit :=
  match node.rule with
  | .numberList => (node.childrenBy .number).map (Visit.mk place .number)
  | .propertyList => (node.childrenBy .property).flatMap fun entry =>
      ⟨place, .property, entry⟩ :: (entry.children.drop 1).map (Visit.mk place .value)
  | .rangeList => (node.childrenBy .range).flatMap fun range =>
      ⟨place, .range, range⟩ :: (range.children.take 2).map (Visit.mk place .number)
  | _ => []

def argumentVisits (place : Span) (node : Node) : List Visit :=
  ⟨place, .argument, node⟩ :: node.innerVisits place

def itemVisits (node : Node) : List Visit :=
  ⟨node.span, .item, node⟩ ::
    if node.rule = .directive then node.children.flatMap (argumentVisits node.span) else []

/-- All that is looked at when a tree is compiled. -/
def visits (tree : Node) : List Visit := tree.children.flatMap itemVisits

mutual

/-- The nodes of a tree from left to right, each in front of those below it. -/
def preorder : Node → List Node
  | ⟨rule, text, start, stop, children⟩ =>
      ⟨rule, text, start, stop, children⟩ :: preorderAll children

def preorderAll : List Node → List Node
  | [] => []
  | node :: rest => node.preorder ++ preorderAll rest

end

theorem preorderAll_eq_flatMap (nodes : List Node) : preorderAll nodes = nodes.flatMap preorder := by
  induction nodes with
  | nil => rfl
  | cons node rest ih => rw [preorderAll, ih, List.flatMap_cons]

theorem preorder_eq (node : Node) : node.preorder = node :: node.children.flatMap preorder := by
  obtain ⟨rule, text, start, stop, children⟩ := node
  rw [preorder, preorderAll_eq_flatMap]

/-- Children, each taken with some of the nodes below it. -/
theorem flatMap_sublist_preorder {nodes children : List Node} {f : Node → List Node}
    (h : nodes.Sublist children) (hf : ∀ n ∈ nodes, (f n).Sublist n.preorder) :
    (nodes.flatMap f).Sublist (children.flatMap preorder) :=
  (List.Sublist.flatMap_right nodes hf).trans (h.flatMap preorder)

theorem singleton_sublist_preorder (node : Node) : [node].Sublist node.preorder := by
  rw [preorder_eq]
  exact List.singleton_sublist.mpr List.mem_cons_self

theorem sublist_preorder {nodes children : List Node} (h : nodes.Sublist children) :
    nodes.Sublist (children.flatMap preorder) := by
  have hnodes := flatMap_sublist_preorder (f := fun n => [n]) h fun n _ => singleton_sublist_preorder n
  rwa [List.flatMap_singleton'] at hnodes

theorem map_node_mk (place : Span) (role : Role) (nodes : List Node) :
    (nodes.map (Visit.mk place role)).map Visit.node = nodes := by
  rw [List.map_map]
  exact List.map_id nodes

theorem innerVisits_sublist (place : Span) (node : Node) :
    ((node.innerVisits place).map Visit.node).Sublist (node.children.flatMap preorder) := by
  rw [innerVisits]
  split
  · rw [map_node_mk]
    exact sublist_preorder List.filter_sublist
  · rw [List.map_flatMap]
    refine flatMap_sublist_preorder List.filter_sublist fun entry _ => ?_
    rw [List.map_cons, map_node_mk, preorder_eq]
    exact (sublist_preorder (List.drop_sublist 1 _)).cons_cons entry
  · rw [List.map_flatMap]
    refine flatMap_sublist_preorder List.filter_sublist fun range _ => ?_
    rw [List.map_cons, map_node_mk, preorder_eq]
    exact (sublist_preorder (List.take_sublist 2 _)).cons_cons range
  · exact List.nil_sublist _

theorem argumentVisits_sublist (place : Span) (node : Node) :
    ((node.argumentVisits place).map Visit.node).Sublist node.preorder := by
  rw [argumentVisits, List.map_cons, preorder_eq]
  exact (innerVisits_sublist place node).cons_cons node

/-- What is looked at below an item. -/
theorem arguments_sublist (place : Span) (node : Node) :
    ((node.children.flatMap (argumentVisits place)).map Visit.node).Sublist
      (node.children.flatMap preorder) := by
  rw [List.map_flatMap]
  exact flatMap_sublist_preorder (List.Sublist.refl _) fun child _ => argumentVisits_sublist place child

/-- Nodes are looked at from left to right, each before those below it. -/
theorem visits_sublist_preorder (tree : Node) :
    (tree.visits.map Visit.node).Sublist tree.preorder := by
  rw [visits, List.map_flatMap, preorder_eq]
  refine (flatMap_sublist_preorder (List.Sublist.refl _) fun item _ => ?_).cons tree
  rw [itemVisits, List.map_cons, preorder_eq]
  refine List.Sublist.cons_cons item ?_
  split
  · exact arguments_sublist item.span item
  · exact List.nil_sublist _

theorem place_of_mem_argumentVisits {place : Span} {node : Node} {visit : Visit}
    (h : visit ∈ node.argumentVisits place) : visit.place = place := by
  rcases List.mem_cons.mp h with rfl | h
  · rfl
  · rw [innerVisits] at h
    split at h
    · obtain ⟨child, -, rfl⟩ := List.mem_map.mp h
      rfl
    · obtain ⟨entry, -, h⟩ := List.mem_flatMap.mp h
      rcases List.mem_cons.mp h with rfl | h
      · rfl
      · obtain ⟨value, -, rfl⟩ := List.mem_map.mp h
        rfl
    · obtain ⟨range, -, h⟩ := List.mem_flatMap.mp h
      rcases List.mem_cons.mp h with rfl | h
      · rfl
      · obtain ⟨bound, -, rfl⟩ := List.mem_map.mp h
        rfl
    · cases h

/-- The place of a look is the one of the directive around the node, or of a child of the root that is
looked at itself. -/
theorem place_of_mem_visits {tree : Node} {visit : Visit} (h : visit ∈ tree.visits) :
    ∃ item ∈ tree.children, visit.place = item.span ∧ (visit.role = .item ∧ visit.node = item ∨
      item.rule = .directive ∧ visit.node ∈ item.children.flatMap preorder) := by
  obtain ⟨item, hitem, h⟩ := List.mem_flatMap.mp h
  refine ⟨item, hitem, ?_⟩
  rcases List.mem_cons.mp h with rfl | h
  · exact ⟨rfl, .inl ⟨rfl, rfl⟩⟩
  · split at h
    · next hrule =>
        obtain ⟨child, -, hchild⟩ := List.mem_flatMap.mp h
        exact ⟨place_of_mem_argumentVisits hchild, .inr ⟨hrule,
          (arguments_sublist item.span item).subset (List.mem_map_of_mem h)⟩⟩
    · cases h

end Node

/-- The error is about this place, and not about a token without a group. -/
structure CompileError.LiesAt (place : Span) (e : CompileError) : Prop where
  span : e.span? = some place
  grouped : ∀ span, e ≠ .malformedTree span .tokenOutsideDirective

section Places

variable {place : Span} {node : Node} {e : CompileError}

theorem liesAt_malformedTree {fault : TreeFault} (h : fault ≠ .tokenOutsideDirective) :
    (CompileError.malformedTree place fault).LiesAt place := by
  refine ⟨rfl, fun span heq => ?_⟩
  exact h (CompileError.malformedTree.inj heq).2

theorem liesAt_of_numberFault? (h : numberFault? place node = some e) : e.LiesAt place := by
  rw [numberFault?] at h
  split at h
  · cases h
  · obtain rfl := Option.some.inj h
    exact ⟨rfl, fun span heq => nomatch heq⟩

theorem liesAt_of_quantityFault? {U : Type} [UnitFamily U] (h : quantityFault? U place node = some e) :
    e.LiesAt place := by
  rw [quantityFault?] at h
  split at h
  · cases h
  · next error _ =>
      obtain rfl := Option.some.inj h
      cases error <;> exact ⟨rfl, fun span heq => nomatch heq⟩

/-- A fault lies at the place of the look that finds it. -/
theorem Visit.liesAt_of_fault? {visit : Visit} (h : visit.fault? = some e) : e.LiesAt visit.place := by
  obtain ⟨place, role, node⟩ := visit
  cases role with
  | item =>
      simp only [fault?] at h
      split at h
      case h_4 =>
        obtain rfl := Option.some.inj h
        exact liesAt_malformedTree (fun heq => nomatch heq)
      all_goals cases h
  | argument =>
      simp only [fault?] at h
      split at h
      · exact liesAt_of_numberFault? h
      · exact liesAt_of_quantityFault? h
      · exact liesAt_of_quantityFault? h
      · cases h
      · obtain rfl := Option.some.inj h
        exact liesAt_malformedTree (fun heq => nomatch heq)
  | number => exact liesAt_of_numberFault? h
  | property | range =>
      simp only [fault?] at h
      split at h
      · cases h
      · obtain rfl := Option.some.inj h
        exact liesAt_malformedTree (fun heq => nomatch heq)
  | value =>
      simp only [fault?] at h
      split at h
      case h_1 => exact liesAt_of_numberFault? h
      case h_5 =>
        obtain rfl := Option.some.inj h
        exact liesAt_malformedTree (fun heq => nomatch heq)
      all_goals cases h

end Places

end RowRecipe
