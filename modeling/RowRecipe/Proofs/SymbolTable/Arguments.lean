import RowRecipe.Proofs.SymbolTable.Layout

/-!
What the arguments of directives give. Each argument is converted by itself, whatever stands beside it
and wherever its directive stands. Its rule says of which kind the token is, and the elements of a list
are the children of one rule.
-/

namespace RowRecipe

open Outcome

/-- The kind of the tokens that a rule gives, if it is one of arguments. -/
def Rule.tokenKind? : Rule → Option TokenKind
  | .command | .customCommand => some .directiveName
  | .identifier => some .identifier
  | .column => some .columnName
  | .columnList => some .columnNameList
  | .text => some .text
  | .textList => some .textList
  | .number => some .numeric
  | .numberList => some .numericList
  | .bool => some .bool
  | .boolList => some .boolList
  | .byteSize => some .byteSize
  | .timeDuration => some .timeDuration
  | .propertyList => some .properties
  | .rangeList => some .ranges
  | .condition => some .expression
  | .recipe | .directive | .property | .range | .loadPragma | .versionPragma => none

/-- The rule of the elements of a list that are tokens in their own right. -/
def Rule.element? : Rule → Option Rule
  | .columnList => some .column
  | .textList => some .text
  | .numberList => some .number
  | .boolList => some .bool
  | _ => none

/-- The elements of a list, each as a token of its own. -/
def Token.elements : Token → List Token
  | .columnNameList names => names.map .columnName
  | .textList contents => contents.map .text
  | .numericList ns => ns.map .numeric
  | .boolList bs => bs.map .bool
  | _ => []

namespace Node

/-- The argument by itself, wherever its directive stands, has this token. Its rule says of which kind
it is, and a list has all of its elements in their order and nothing else. -/
structure Gives (node : Node) (t : Token) : Prop where
  reads : ∀ span, node.token span = .ok t
  kind : node.rule.tokenKind? = some t.kind
  elements : ∀ rule, node.rule.element? = some rule →
    List.Forall₂ (fun child made => ∀ span, child.token span = .ok made)
      (node.childrenBy rule) t.elements
  properties : node.rule = .propertyList → ∃ entries, t = .properties (Entries.ofList entries) ∧
    List.Forall₂ (fun child made => ∀ span, child.propertyEntry span = .ok made)
      (node.childrenBy .property) entries
  ranges : node.rule = .rangeList → ∃ rs, t = .ranges rs ∧
    List.Forall₂ (fun child made => ∀ span, child.numericRange span = .ok made)
      (node.childrenBy .range) rs

/-- The argument has a token. -/
def Converts (node : Node) : Prop := ∃ token, ∀ span, node.token span = .ok token

section Anywhere

variable (span span' : Span) (node : Node)

theorem propertyValue_anywhere :
    Agree Eq (propertyValue span node) (propertyValue span' node) := by
  rw [propertyValue, propertyValue]
  split
  · exact (numeral_agree span span' rfl).map fun _ _ => congrArg Token.numeric
  · exact .ok rfl
  · exact .ok rfl
  · exact .ok rfl
  · exact .error (.malformedTree span span' _ _)

theorem propertyEntry_anywhere :
    Agree Eq (propertyEntry span node) (propertyEntry span' node) := by
  rw [propertyEntry, propertyEntry]
  split
  · exact (propertyValue_anywhere span span' _).map fun _ _ htoken => Prod.ext rfl htoken
  · exact .error (.malformedTree span span' _ _)

theorem numericRange_anywhere :
    Agree Eq (numericRange span node) (numericRange span' node) := by
  rw [numericRange, numericRange]
  split
  · refine (numeral_agree span span' rfl).bind fun low _ hlow => ?_
    refine (numeral_agree span span' rfl).bind fun high _ hhigh => ?_
    rw [hlow, hhigh]
    exact .ok rfl
  · exact .error (.malformedTree span span' _ _)

theorem mapM_anywhere {α : Type} {read : Span → Node → Except CompileError α}
    (h : ∀ node, Agree Eq (read span node) (read span' node)) (nodes : List Node) :
    Agree Eq (nodes.mapM (read span)) (nodes.mapM (read span')) :=
  Agree.mapM_eq (List.forall₂_same.mpr fun _ _ => rfl) fun x y (hxy : x = y) => hxy ▸ h x

/-- Where the directive of an argument stands does not matter to its token. -/
theorem token_anywhere : Agree Eq (token span node) (token span' node) := by
  rw [token, token]
  cases hrule : node.rule with
  | number => exact (numeral_agree span span' rfl).map fun _ _ => congrArg Token.numeric
  | byteSize => exact (quantity_agree span span' rfl).map fun _ _ => congrArg Token.byteSize
  | timeDuration => exact (quantity_agree span span' rfl).map fun _ _ => congrArg Token.timeDuration
  | numberList =>
      exact (mapM_anywhere span span' (fun _ => numeral_agree span span' rfl) _).map
        fun _ _ => congrArg Token.numericList
  | propertyList =>
      exact (mapM_anywhere span span' (propertyEntry_anywhere span span') _).map
        fun _ _ hentries => by rw [hentries]
  | rangeList =>
      exact (mapM_anywhere span span' (numericRange_anywhere span span') _).map
        fun _ _ => congrArg Token.ranges
  | recipe | directive | property | range | loadPragma | versionPragma =>
      exact .error (.malformedTree span span' _ _)
  | _ => exact .ok rfl

end Anywhere

variable {span : Span} {node : Node} {t : Token}

theorem forall_ok {α : Type} {read : Span → Except CompileError α} {x : α}
    (h : ∀ span', Agree Eq (read span) (read span')) (hx : read span = .ok x) (span' : Span) :
    read span' = .ok x := by
  have hagree := h span'
  rw [hx] at hagree
  obtain ⟨y, hy, rfl⟩ := hagree.exists_of_ok
  exact hy

theorem rule_of_mem_childrenBy {rule : Rule} {child : Node} (h : child ∈ node.childrenBy rule) :
    child.rule = rule :=
  beq_iff_eq.mp (List.mem_filter.mp h).2

theorem tokenKind?_of_token (h : node.token span = .ok t) : node.rule.tokenKind? = some t.kind := by
  rw [token] at h
  cases hrule : node.rule <;> rw [hrule] at h
  case number | byteSize | timeDuration | numberList | propertyList | rangeList =>
    obtain ⟨x, -, rfl⟩ := map_eq_ok.mp h
    rfl
  case recipe | directive | property | range | loadPragma | versionPragma => cases h
  all_goals
    obtain rfl := Except.ok.inj h
    rfl

/-- Elements that are never refused. -/
theorem forall₂_elements {rule : Rule} {f : Node → Token}
    (hf : ∀ child : Node, child.rule = rule → ∀ span, child.token span = .ok (f child)) :
    List.Forall₂ (fun child made => ∀ span, child.token span = .ok made) (node.childrenBy rule)
      ((node.childrenBy rule).map f) :=
  List.forall₂_map_right_iff.mpr <|
    List.forall₂_same.mpr fun child hchild => hf child (rule_of_mem_childrenBy hchild)

theorem elements_of_token (h : node.token span = .ok t) {rule : Rule}
    (helement : node.rule.element? = some rule) :
    List.Forall₂ (fun child made => ∀ span, child.token span = .ok made) (node.childrenBy rule)
      t.elements := by
  rw [token] at h
  cases hrule : node.rule <;> rw [hrule] at h helement
  case columnList | textList | boolList =>
    obtain rfl := Option.some.inj helement
    obtain rfl := Except.ok.inj h
    rw [Token.elements, List.map_map]
    exact forall₂_elements fun child hchild span => by rw [token, hchild]; rfl
  case numberList =>
    obtain rfl := Option.some.inj helement
    obtain ⟨ns, hns, rfl⟩ := map_eq_ok.mp h
    rw [Token.elements, List.forall₂_map_right_iff]
    have hnumbers := (List.forall₂_and_left _ _).mpr
      ⟨fun _ => rule_of_mem_childrenBy, mapM_eq_ok.mp hns⟩
    refine hnumbers.imp fun child n hn => forall_ok (token_anywhere span · child) ?_
    rw [token, hn.1]
    exact map_eq_ok.mpr ⟨n, hn.2, rfl⟩
  all_goals cases helement

theorem gives_of_token (h : node.token span = .ok t) : node.Gives t := by
  refine ⟨forall_ok (token_anywhere span · node) h, tokenKind?_of_token h,
    fun rule => elements_of_token h, fun hrule => ?_, fun hrule => ?_⟩
  · rw [token, hrule] at h
    obtain ⟨entries, hentries, rfl⟩ := map_eq_ok.mp h
    exact ⟨entries, rfl, (mapM_eq_ok.mp hentries).imp fun child made hmade =>
      forall_ok (propertyEntry_anywhere span · child) hmade⟩
  · rw [token, hrule] at h
    obtain ⟨rs, hrs, rfl⟩ := map_eq_ok.mp h
    exact ⟨rs, rfl, (mapM_eq_ok.mp hrs).imp fun child made hmade =>
      forall_ok (numericRange_anywhere span · child) hmade⟩

end Node

end RowRecipe
