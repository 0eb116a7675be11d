import Mathlib
import RowRecipe.Proofs.Tree.Joining
import RowRecipe.SymbolTable.OfTree

/-!
Recipes compose. The tokens of a node do not depend on where the node stands, except that an error
carries the span of its directive, and a builder that starts from the table of one recipe adds that
of another one behind it. So two recipes joined by a newline have the groups of both, and what the
second one is refused for, the whole is refused for further down.
-/

namespace RowRecipe

/-- The same span further down. -/
def Span.moved (lines : Nat) (s : Span) : Span :=
  { s with startLine := s.startLine + lines, endLine := s.endLine + lines }

/-- The same group further down. -/
def TokenGroup.moved (lines : Nat) (group : TokenGroup) : TokenGroup :=
  { group with span := group.span.moved lines }

/-- The same error further down. -/
def CompileError.moved (lines : Nat) : CompileError → CompileError
  | .grammar e => .grammar (e.moved lines)
  | .malformedLiteral span e => .malformedLiteral (span.moved lines) e
  | .unrecognizedUnit span e => .unrecognizedUnit (span.moved lines) e
  | .invalidNumber span text => .invalidNumber (span.moved lines) text
  | .malformedTree span fault => .malformedTree (span.moved lines) fault

/-- The table of a recipe with another recipe some lines below it. -/
def SymbolTable.joined (first : SymbolTable) (lines : Nat) (second : SymbolTable) :
    SymbolTable where
  groups := first.groups ++ second.groups.map (TokenGroup.moved lines)
  loadables := first.loadables ++ second.loadables.filter (· ∉ first.loadables)
  version := second.version.or first.version

/-- Readers that agree up to their errors agree on lists. -/
theorem mapM_map_eq_mapError {α β γ ε : Type} {g : α → β} {read : α → Except ε γ}
    {read' : β → Except ε γ} {change : ε → ε}
    (h : ∀ x, read' (g x) = (read x).mapError change) (xs : List α) :
    (xs.map g).mapM read' = (xs.mapM read).mapError change := by
  induction xs with
  | nil => rfl
  | cons x rest ih =>
      rw [List.map_cons, List.mapM_cons, List.mapM_cons, h, ih]
      cases read x with
      | error e => rfl
      | ok y => cases rest.mapM read <;> rfl

namespace Node

variable (bytes lines : Nat) (span : Span) (node : Node)

theorem moved_rule : (node.moved bytes lines).rule = node.rule := by
  rw [moved_eq]

theorem moved_text : (node.moved bytes lines).text = node.text := by
  rw [moved_eq]

theorem moved_children :
    (node.moved bytes lines).children = node.children.map (moved bytes lines) := by
  rw [moved_eq]

theorem moved_span : (node.moved bytes lines).span = node.span.moved lines := by
  rw [moved_eq]
  rfl

theorem childrenBy_moved (rule : Rule) :
    (node.moved bytes lines).childrenBy rule =
      (node.childrenBy rule).map (moved bytes lines) := by
  simp only [childrenBy, moved_children, List.filter_map, Function.comp_def, moved_rule]

/-- What is read from the texts of children does not move. -/
theorem map_childrenBy_moved {α : Type} {g : Node → α}
    (hg : ∀ child : Node, g (child.moved bytes lines) = g child) (rule : Rule) :
    ((node.moved bytes lines).childrenBy rule).map g = (node.childrenBy rule).map g := by
  simp only [childrenBy_moved, List.map_map, Function.comp_def, hg]

theorem numeral_moved :
    (node.moved bytes lines).numeral (span.moved lines) =
      (node.numeral span).mapError (CompileError.moved lines) := by
  simp only [numeral, moved_text]
  cases Numeral.parse? node.text <;> rfl

theorem quantity_moved {U : Type} [UnitFamily U] :
    (node.moved bytes lines).quantity (U := U) (span.moved lines) =
      (node.quantity span).mapError (CompileError.moved lines) := by
  simp only [quantity, moved_text]
  cases Quantity.parse (U := U) (Text.trimmed node.text) with
  | ok q => rfl
  | error e => cases e <;> rfl

theorem propertyValue_moved :
    (node.moved bytes lines).propertyValue (span.moved lines) =
      (node.propertyValue span).mapError (CompileError.moved lines) := by
  simp only [propertyValue, moved_rule, numeral_moved, boolValue, unquotedText, moved_text]
  cases node.rule with
  | number => cases node.numeral span <;> rfl
  | _ => rfl

theorem propertyEntry_moved :
    (node.moved bytes lines).propertyEntry (span.moved lines) =
      (node.propertyEntry span).mapError (CompileError.moved lines) := by
  simp only [propertyEntry, moved_children]
  match node.children with
  | [] => simp only [List.map_nil, moved_text]; rfl
  | [_] => simp only [List.map_cons, List.map_nil, moved_text]; rfl
  | [key, value] =>
      simp only [List.map_cons, List.map_nil, propertyValue_moved, unquotedText, moved_text]
      cases value.propertyValue span <;> rfl
  | _ :: _ :: _ :: _ => simp only [List.map_cons, moved_text]; rfl

theorem numericRange_moved :
    (node.moved bytes lines).numericRange (span.moved lines) =
      (node.numericRange span).mapError (CompileError.moved lines) := by
  simp only [numericRange, moved_children]
  match node.children with
  | [] => simp only [List.map_nil, moved_text]; rfl
  | [_] => simp only [List.map_cons, List.map_nil, moved_text]; rfl
  | [_, _] => simp only [List.map_cons, List.map_nil, moved_text]; rfl
  | [low, high, label] =>
      simp only [List.map_cons, List.map_nil, numeral_moved, unquotedText, moved_text]
      cases low.numeral span with
      | error e => rfl
      | ok low => cases high.numeral span <;> rfl
  | _ :: _ :: _ :: _ :: _ => simp only [List.map_cons, moved_text]; rfl

/-- The token of a child is the same further along; an error is that of the moved directive. -/
theorem token_moved :
    (node.moved bytes lines).token (span.moved lines) =
      (node.token span).mapError (CompileError.moved lines) := by
  have hcolumns := map_childrenBy_moved bytes lines node (g := columnName)
    (fun child => by rw [columnName, moved_text, columnName])
  have htexts := map_childrenBy_moved bytes lines node (g := unquotedText)
    (fun child => by rw [unquotedText, moved_text, unquotedText])
  have hbools := map_childrenBy_moved bytes lines node (g := boolValue)
    (fun child => by rw [boolValue, moved_text, boolValue])
  have hnumerals := mapM_map_eq_mapError (fun child => numeral_moved bytes lines span child)
    (node.childrenBy .number)
  have hentries := mapM_map_eq_mapError (fun child => propertyEntry_moved bytes lines span child)
    (node.childrenBy .property)
  have hranges := mapM_map_eq_mapError (fun child => numericRange_moved bytes lines span child)
    (node.childrenBy .range)
  simp only [← childrenBy_moved] at hnumerals hentries hranges
  simp only [token, moved_rule, moved_text, columnName, boolValue, unquotedText, numeral_moved,
    quantity_moved, hcolumns, htexts, hbools, hnumerals, hentries, hranges]
  cases node.rule with
  | number => cases node.numeral span <;> rfl
  | numberList => cases (node.childrenBy .number).mapM (numeral span) <;> rfl
  | byteSize => cases node.quantity (U := ByteUnit) span <;> rfl
  | timeDuration => cases node.quantity (U := TimeUnit) span <;> rfl
  | propertyList => cases (node.childrenBy .property).mapM (propertyEntry span) <;> rfl
  | rangeList => cases (node.childrenBy .range).mapM (numericRange span) <;> rfl
  | _ => rfl

end Node

/-- A loop whose steps commute with a change of states commutes with it. -/
theorem foldlM_map_eq_map {σ α β ε : Type} {step : σ → α → Except ε σ}
    {step' : σ → β → Except ε σ} {g : α → β} {carry : σ → σ} {change : ε → ε}
    (h : ∀ s x, step' (carry s) (g x) = ((step s x).map carry).mapError change)
    (xs : List α) (s : σ) :
    (xs.map g).foldlM step' (carry s) = ((xs.foldlM step s).map carry).mapError change := by
  induction xs generalizing s with
  | nil => rfl
  | cons x rest ih =>
      rw [List.map_cons, List.foldlM_cons, List.foldlM_cons, h]
      cases step s x with
      | error e => rfl
      | ok s => exact ih s

namespace SymbolTable

namespace Builder

/-- A builder at work some lines below a recipe whose table is finished. -/
def below (first : SymbolTable) (lines : Nat) (b : Builder) : Builder :=
  ⟨first.joined lines b.table, b.current.map (TokenGroup.moved lines)⟩

variable (first : SymbolTable) (lines : Nat) (b : Builder)

theorem closeGroup_below :
    (b.below first lines).closeGroup = b.closeGroup.below first lines := by
  obtain ⟨table, current⟩ := b
  cases current with
  | none => rfl
  | some group =>
      simp only [below, closeGroup, joined, Option.map_some, List.map_append, List.map_cons,
        List.map_nil, List.append_assoc, Option.map_none]

theorem openGroup_below (span : Span) :
    (b.below first lines).openGroup (span.moved lines) =
      (b.openGroup span).below first lines := by
  rw [openGroup, closeGroup_below]
  rfl

theorem push?_below (token : Token) :
    (b.below first lines).push? token = (b.push? token).map (below first lines) := by
  obtain ⟨table, current⟩ := b
  cases current <;> rfl

theorem addLoadable_of_mem {b : Builder} {name : String} (h : name ∈ b.table.loadables) :
    b.addLoadable name = b := if_pos h

theorem addLoadable_of_notMem {b : Builder} {name : String} (h : name ∉ b.table.loadables) :
    b.addLoadable name =
      { b with table := { b.table with loadables := b.table.loadables ++ [name] } } := if_neg h

theorem mem_loadables_below {name : String} :
    name ∈ (b.below first lines).table.loadables ↔
      name ∈ first.loadables ∨ name ∈ b.table.loadables := by
  simp only [below, joined, List.mem_append, List.mem_filter, decide_eq_true_eq]
  constructor
  · rintro (h | ⟨h, -⟩)
    · exact Or.inl h
    · exact Or.inr h
  · intro h
    by_cases hfirst : name ∈ first.loadables
    · exact Or.inl hfirst
    · exact Or.inr ⟨h.resolve_left hfirst, hfirst⟩

/-- A name that the first recipe asks for is no news in the second one either. -/
theorem addLoadable_below (name : String) :
    (b.below first lines).addLoadable name = (b.addLoadable name).below first lines := by
  by_cases hsecond : name ∈ b.table.loadables
  · rw [addLoadable_of_mem hsecond,
      addLoadable_of_mem ((mem_loadables_below first lines b).mpr (Or.inr hsecond))]
  · rw [addLoadable_of_notMem hsecond]
    by_cases hfirst : name ∈ first.loadables
    · rw [addLoadable_of_mem ((mem_loadables_below first lines b).mpr (Or.inl hfirst))]
      simp only [below, joined, List.filter_append]
      simp [hfirst]
    · have hneither : name ∉ (b.below first lines).table.loadables := by
        intro h
        rcases (mem_loadables_below first lines b).mp h with h | h
        · exact hfirst h
        · exact hsecond h
      rw [addLoadable_of_notMem hneither]
      simp only [below, joined, List.filter_append]
      simp [hfirst]

theorem setVersion_below (version : String) :
    (b.below first lines).setVersion version = (b.setVersion version).below first lines := rfl

theorem foldl_addLoadable_below (names : List Node) (bytes : Nat) :
    (names.map (Node.moved bytes lines)).foldl
        (fun b name => b.addLoadable (Text.trimmed name.text)) (b.below first lines) =
      (names.foldl (fun b name => b.addLoadable (Text.trimmed name.text)) b).below first lines := by
  induction names generalizing b with
  | nil => rfl
  | cons name rest ih =>
      rw [List.map_cons, List.foldl_cons, List.foldl_cons, Node.moved_text, addLoadable_below]
      exact ih _

end Builder

open Builder

variable (first : SymbolTable) (bytes lines : Nat) (b : Builder)

theorem addToken_below (span : Span) (child : Node) :
    addToken (span.moved lines) (b.below first lines) (child.moved bytes lines) =
      ((addToken span b child).map (below first lines)).mapError (CompileError.moved lines) := by
  simp only [addToken, Node.token_moved]
  cases child.token span with
  | error e => rfl
  | ok token =>
      have hpush := push?_below first lines b token
      cases hnext : b.push? token with
      | none =>
          rw [hnext] at hpush
          simp only [bind, Except.bind, Except.mapError, hpush, hnext, Option.map_none]
          rfl
      | some next =>
          rw [hnext] at hpush
          simp only [bind, Except.bind, Except.mapError, hpush, hnext, Option.map_some]
          rfl

theorem addDirective_below (node : Node) :
    addDirective (b.below first lines) (node.moved bytes lines) =
      ((addDirective b node).map (below first lines)).mapError (CompileError.moved lines) := by
  have htokens := foldlM_map_eq_map
    (fun b child => addToken_below first bytes lines b node.span child) node.children
    (b.openGroup node.span)
  simp only [addDirective, Node.moved_span, Node.moved_children, openGroup_below, htokens]
  cases node.children.foldlM (addToken node.span) (b.openGroup node.span) with
  | error e => rfl
  | ok b => exact congrArg Except.ok (closeGroup_below first lines b)

theorem addItem_below (node : Node) :
    addItem (b.below first lines) (node.moved bytes lines) =
      ((addItem b node).map (below first lines)).mapError (CompileError.moved lines) := by
  have hnames := foldl_addLoadable_below first lines b.closeGroup (node.childrenBy .identifier)
    bytes
  unfold addItem
  rw [Node.moved_rule]
  cases node.rule with
  | directive => exact addDirective_below first bytes lines b node
  | loadPragma =>
      simp only [Node.childrenBy_moved, closeGroup_below, hnames]
      rfl
  | versionPragma =>
      simp only [Node.moved_children, closeGroup_below]
      cases node.children with
      | nil => rfl
      | cons version rest =>
          simp only [List.map_cons, Node.moved_text, setVersion_below]
          rfl
  | _ =>
      simp only [Node.moved_span]
      rfl

theorem closeGroup_current (b : Builder) : b.closeGroup.current = none := by
  obtain ⟨table, current⟩ := b
  cases current <;> rfl

theorem addLoadable_current (name : String) (b : Builder) :
    (b.addLoadable name).current = b.current := by
  unfold addLoadable
  split <;> rfl

theorem foldl_addLoadable_current (names : List Node) {b : Builder} (h : b.current = none) :
    (names.foldl (fun b name => b.addLoadable (Text.trimmed name.text)) b).current = none := by
  induction names generalizing b with
  | nil => exact h
  | cons name rest ih => exact ih ((addLoadable_current _ b).trans h)

/-- Between the items of a recipe no group is open. -/
theorem addItem_current {b b' : Builder} {node : Node} (h : addItem b node = .ok b') :
    b'.current = none := by
  unfold addItem at h
  split at h
  · cases hfold : node.children.foldlM (addToken node.span) (b.openGroup node.span) with
    | error e =>
        rw [addDirective, hfold] at h
        cases h
    | ok filled =>
        rw [addDirective, hfold] at h
        rw [← Except.ok.inj h]
        exact closeGroup_current filled
  · rw [← Except.ok.inj h]
    exact foldl_addLoadable_current _ (closeGroup_current b)
  · split at h
    · rw [← Except.ok.inj h]
      exact closeGroup_current b
    · rw [← Except.ok.inj h]
      exact closeGroup_current b
  · cases h

theorem foldlM_addItem_current {nodes : List Node} {b b' : Builder} (hb : b.current = none)
    (h : nodes.foldlM addItem b = .ok b') : b'.current = none := by
  induction nodes generalizing b with
  | nil =>
      obtain rfl := Except.ok.inj h
      exact hb
  | cons node rest ih =>
      rw [List.foldlM_cons] at h
      cases hitem : addItem b node with
      | error e =>
          rw [hitem] at h
          cases h
      | ok next =>
          rw [hitem] at h
          exact ih (addItem_current hitem) h

/-- The tables of two lists of items, the second of them some lines below the first. -/
theorem foldlM_addItem_joined {nodes : List Node} {ta : SymbolTable}
    (h : (nodes.foldlM addItem Builder.empty).map build = .ok ta) (more : List Node) :
    ((nodes ++ more.map (Node.moved bytes lines)).foldlM addItem Builder.empty).map build =
      (((more.foldlM addItem Builder.empty).map build).map (ta.joined lines)).mapError
        (CompileError.moved lines) := by
  cases hnodes : nodes.foldlM addItem Builder.empty with
  | error e =>
      rw [hnodes] at h
      cases h
  | ok b =>
      rw [hnodes] at h
      have hclosed : b.current = none := foldlM_addItem_current rfl hnodes
      -- Where the second list starts, the builder holds the table of the first one, and nothing
      -- else.
      have hstart : b = Builder.empty.below ta lines := by
        obtain ⟨table, current⟩ := b
        obtain rfl := Except.ok.inj h
        obtain rfl : current = none := hclosed
        simp [below, joined, Builder.empty, SymbolTable.empty, build, closeGroup]
      have hmore := foldlM_map_eq_map (fun b node => addItem_below ta bytes lines b node) more
        Builder.empty
      rw [List.foldlM_append, hnodes, hstart]
      change ((more.map (Node.moved bytes lines)).foldlM addItem
        (Builder.empty.below ta lines)).map build = _
      rw [hmore]
      cases more.foldlM addItem Builder.empty with
      | error e => rfl
      | ok last =>
          apply congrArg Except.ok
          change (last.below ta lines).closeGroup.table = _
          rw [closeGroup_below]
          rfl

/-- A table is made of the children of a recipe's tree. -/
theorem compile_eq (source : String) :
    compile source = (((Node.parse source).map Node.children).mapError .grammar).bind fun nodes =>
      (nodes.foldlM addItem Builder.empty).map build := by
  unfold compile
  cases Node.parse source <;> rfl

/-- Recipes compose. A newline and another text after a recipe give the groups of both, the names
that both ask for, and the version declared last; or they give the error of the other text, further
down. -/
theorem compile_append_newline {a : String} {ta : SymbolTable} (h : compile a = .ok ta)
    (b : String) :
    compile (a ++ "\n" ++ b) =
      match compile b with
      | .ok tb => .ok (ta.joined (1 + a.toList.count '\n') tb)
      | .error e => .error (e.moved (1 + a.toList.count '\n')) := by
  have hlines : (Node.followingFrame a.toList).lines = 1 + a.toList.count '\n' := by
    rw [Frame.lines, Node.followingFrame, List.count_append, Nat.add_comm]
    rfl
  rw [compile_eq] at h
  cases htree : Node.parse a with
  | error e =>
      rw [htree] at h
      cases h
  | ok tree =>
      rw [htree] at h
      rw [compile_eq, compile_eq, Node.parse_joined htree b, hlines]
      cases Node.parse b with
      | error e => rfl
      | ok more =>
          refine (foldlM_addItem_joined (Node.followingFrame a.toList).bytes
            (1 + a.toList.count '\n') h more.children).trans ?_
          change ((ofTree more).map _).mapError _ =
            match ofTree more with | .ok tb => _ | .error e => _
          cases ofTree more <;> rfl

/-- A quantity in no known unit, on the line after a recipe of two lines. -/
theorem compile_append_newline_unknown_unit :
    compile "#pragma version 2\nkeep :a" =
        .ok ⟨[⟨[.directiveName "keep", .columnName "a"], ⟨2, 0, 2, 7, "keep :a"⟩⟩], [], some "2"⟩ ∧
      compile ("#pragma version 2\nkeep :a" ++ "\n" ++ "cut 5XB") =
        .error (.unrecognizedUnit ⟨3, 0, 3, 7, "cut 5XB"⟩
          (.unrecognizedUnit "byte size" "XB" "5XB")) := by
  have hfirst : compile "#pragma version 2\nkeep :a" =
      .ok ⟨[⟨[.directiveName "keep", .columnName "a"], ⟨2, 0, 2, 7, "keep :a"⟩⟩], [],
        some "2"⟩ := by
    cbv
  have hsecond : compile "cut 5XB" =
      .error (.unrecognizedUnit ⟨1, 0, 1, 7, "cut 5XB"⟩
        (.unrecognizedUnit "byte size" "XB" "5XB")) := by
    cbv
  refine ⟨hfirst, ?_⟩
  rw [compile_append_newline hfirst "cut 5XB", hsecond]
  rfl

end SymbolTable

end RowRecipe
