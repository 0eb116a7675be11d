import RowRecipe.Arguments.Basic
import RowRecipe.Proofs.SymbolTable.Joining
import RowRecipe.Proofs.SymbolTable.Refusals

/-!
How compiling can end. A recipe that was read from a text compiles unless one of its literals is
refused, and then the error is that of the first such literal, with the place of its directive. Every
group of a table starts with the name of its directive and has no other name in it.
-/

namespace RowRecipe

/-- The tokens are the name of a directive and others that are none. -/
def TokenGroup.IsNamed (group : TokenGroup) : Prop :=
  ∃ name rest, group.tokens = .directiveName name :: rest ∧ ∀ t ∈ rest, t.kind ≠ .directiveName

theorem Arguments.match?_ne_missingDirectiveName (usage : Usage) (parameters : List Usage.Parameter)
    (tokens : List Token) (bound : OrderedMap String Token) (span : Span) :
    match? usage parameters tokens bound ≠ .error (.missingDirectiveName span) := by
  fun_induction match? usage parameters tokens bound with
  | case1 => exact fun h => nomatch h
  | case2 p parameters bound hoptional ih => exact ih
  | case3 => exact fun h => nomatch h
  | case4 p parameters token tokens bound hkind ih => exact ih
  | case5 => exact fun h => nomatch h

theorem Arguments.bind_ne_missingDirectiveName {group : TokenGroup} (h : group.IsNamed)
    (usage : Usage) (span : Span) : bind usage group ≠ .error (.missingDirectiveName span) := by
  obtain ⟨name, rest, htokens, -⟩ := h
  rw [bind, htokens]
  have hmatch := match?_ne_missingDirectiveName usage usage.parameters rest .empty span
  simp only
  split
  · rename_i e he
    intro hmissing
    obtain rfl := Except.error.inj hmissing
    exact hmatch he
  · exact fun h => nomatch h
  · exact fun h => nomatch h

namespace SymbolTable

open Node Grammar Builder

/-- Adds a finished group. -/
def Builder.addGroup (group : TokenGroup) (b : Builder) : Builder :=
  { b with table := { b.table with groups := b.table.groups ++ [group] } }

theorem foldlM_addToken (span : Span) (b : Builder) (nodes : List Node) (done : List Token) :
    nodes.foldlM (addToken span) { b with current := some ⟨done, span⟩ } =
      (nodes.mapM (token span)).map fun tokens =>
        { b with current := some ⟨done ++ tokens, span⟩ } := by
  induction nodes generalizing done with
  | nil =>
      rw [List.foldlM_nil, List.mapM_nil]
      change _ = Except.ok { b with current := some ⟨done ++ [], span⟩ }
      rw [List.append_nil]
      rfl
  | cons node rest ih =>
      rw [List.foldlM_cons, List.mapM_cons]
      cases htoken : token span node with
      | error e =>
          simp only [addToken, htoken]
          rfl
      | ok t =>
          have hadd : addToken span { b with current := some ⟨done, span⟩ } node =
              .ok { b with current := some ⟨done ++ [t], span⟩ } := by
            simp only [addToken, htoken]
            rfl
          rw [hadd]
          change rest.foldlM (addToken span) { b with current := some ⟨done ++ [t], span⟩ } = _
          rw [ih]
          simp only [List.append_assoc, List.singleton_append]
          cases rest.mapM (token span) <;> rfl

/-- A directive becomes a group of the tokens of its children. -/
theorem addItem_directive {b : Builder} (hb : b.current = none) {node : Node}
    (hrule : node.rule = .directive) :
    addItem b node = (node.children.mapM (token node.span)).map fun tokens =>
      b.addGroup ⟨tokens, node.span⟩ := by
  obtain ⟨table, current⟩ := b
  obtain rfl : current = none := hb
  have hopen : openGroup node.span ⟨table, none⟩ = ⟨table, some ⟨[], node.span⟩⟩ := rfl
  have hfold := foldlM_addToken node.span ⟨table, none⟩ node.children []
  rw [addItem, hrule]
  change addDirective ⟨table, none⟩ node = _
  rw [addDirective, hopen, hfold]
  cases node.children.mapM (token node.span) <;> rfl

/-- No group is open, and the finished ones are in order. -/
structure Builder.Sound (b : Builder) : Prop where
  current : b.current = none
  named : ∀ group ∈ b.table.groups, group.IsNamed

theorem Builder.Sound.addGroup {b : Builder} (h : b.Sound) {group : TokenGroup}
    (hgroup : group.IsNamed) : (b.addGroup group).Sound := by
  refine ⟨h.current, fun g hg => ?_⟩
  rcases List.mem_append.mp hg with hg | hg
  · exact h.named g hg
  · rw [List.mem_singleton.mp hg]
    exact hgroup

theorem Builder.Sound.foldl_addLoadable {b : Builder} (h : b.Sound) (names : List Node) :
    (names.foldl (fun b name => b.addLoadable (Text.trimmed name.text)) b).Sound := by
  induction names generalizing b with
  | nil => exact h
  | cons name rest ih =>
      rw [List.foldl_cons]
      apply ih
      by_cases hmem : Text.trimmed name.text ∈ b.table.loadables
      · rw [addLoadable_of_mem hmem]
        exact h
      · rw [addLoadable_of_notMem hmem]
        exact ⟨h.current, h.named⟩

theorem closeGroup_of_current {b : Builder} (h : b.current = none) : b.closeGroup = b := by
  rw [closeGroup, h]

section Items

variable {source : List Char} {ls : List Lexeme} {node : Node} {b : Builder}

/-- What a child of the root may be refused for. -/
def itemRefusals (node : Node) : List (Option CompileError) :=
  if node.rule = .directive then (node.children.flatMap literals).map (refusal? node.span) else []

theorem command_token (h : Command source ls node) (span : Span) :
    ∃ name, token span node = .ok (.directiveName name) := by
  cases h with
  | name => exact ⟨_, rfl⟩
  | custom => exact ⟨_, rfl⟩

theorem item_decided (h : Item source ls node) (hshapes : ∀ l ∈ ls, l.WellShaped) (hb : b.Sound) :
    Decided (itemRefusals node) Builder.Sound (addItem b node) := by
  cases h with
  | loadables =>
      rw [addItem]
      change Decided [] _ (Except.ok (List.foldl _ b.closeGroup _))
      rw [closeGroup_of_current hb.current]
      exact Decided.ok (hb.foldl_addLoadable _)
  | version =>
      rw [addItem]
      change Decided [] _ (Except.ok (b.closeGroup.setVersion _))
      rw [closeGroup_of_current hb.current]
      exact Decided.ok ⟨hb.current, hb.named⟩
  | @directive ls more name arguments hname harguments =>
      have hnone : name.literals = [] := by
        cases hname <;> rfl
      rw [addItem_directive hb.current rfl]
      generalize hspan : (coverNodes source .directive (name :: arguments)).span = span
      have hrefusals : itemRefusals (coverNodes source .directive (name :: arguments)) =
          (arguments.flatMap literals).map (refusal? span) := by
        have hrule : (coverNodes source .directive (name :: arguments)).rule = .directive := rfl
        rw [itemRefusals, if_pos hrule, hspan]
        change List.map _ (List.flatMap _ (name :: arguments)) = _
        rw [List.flatMap_cons, hnone, List.nil_append]
      obtain ⟨word, hword⟩ := command_token hname span
      have hread : (coverNodes source .directive (name :: arguments)).children.mapM (token span) =
          (arguments.mapM (token span)).map fun tokens => .directiveName word :: tokens := by
        change (name :: arguments).mapM (token span) = _
        rw [List.mapM_cons, hword]
        cases arguments.mapM (token span) <;> rfl
      have htokens := arguments_decided span harguments
        fun l hl => hshapes l (List.mem_append_right _ hl)
      rw [hrefusals, hread]
      refine (htokens.map fun tokens htokens => ?_).map fun tokens htokens => hb.addGroup htokens
      exact ⟨word, tokens, rfl, htokens⟩

theorem items_decided {runs : List (List Lexeme)} {nodes : List Node}
    (h : List.Forall₂ (Item source) runs nodes) (hshapes : ∀ run ∈ runs, ∀ l ∈ run, l.WellShaped)
    (hb : b.Sound) : Decided (nodes.flatMap itemRefusals) Builder.Sound (nodes.foldlM addItem b) := by
  induction h generalizing b with
  | nil => exact Decided.ok hb
  | cons hitem _ ih =>
      obtain ⟨hrun, hruns⟩ := List.forall_mem_cons.mp hshapes
      rw [List.flatMap_cons, List.foldlM_cons]
      exact (item_decided hitem hrun hb).bind fun b' hb' => ih hruns hb'

end Items

theorem directiveLiterals_refusals (tree : Node) :
    (tree.directiveLiterals.map fun p => p.2.refusal? p.1) = tree.children.flatMap itemRefusals := by
  have hall : ∀ nodes : List Node,
      ((nodes.filter fun n => n.rule == .directive).flatMap fun directive =>
        (directive.children.flatMap literals).map fun literal => (directive.span, literal)).map
          (fun p => p.2.refusal? p.1) = nodes.flatMap itemRefusals := by
    intro nodes
    induction nodes with
    | nil => rfl
    | cons node rest ih =>
        by_cases hrule : node.rule = .directive
        · rw [List.filter_cons_of_pos (by simpa using hrule), List.flatMap_cons, List.map_append, ih,
            List.flatMap_cons, itemRefusals, if_pos hrule, List.map_map]
          rfl
        · rw [List.filter_cons_of_neg (by simpa using hrule), ih, List.flatMap_cons, itemRefusals,
            if_neg hrule, List.nil_append]
  exact hall tree.children

theorem ofTree_decided {source : String} {tree : Node} (h : Node.parse source = .ok tree) :
    Decided (tree.directiveLiterals.map fun p => p.2.refusal? p.1)
      (fun table => ∀ group ∈ table.groups, group.IsNamed) (ofTree tree) := by
  obtain ⟨ls, hscan, hitems, -⟩ := ofSource_eq_ok.mp (parse_eq_ok.mp h)
  have hshapes : ∀ run ∈ Lexeme.runs ls, ∀ l ∈ run, l.WellShaped := by
    intro run hrun l hl
    have hsub := (List.sublist_flatten_of_mem hrun).trans (flatten_runs_sublist ls)
    exact Lexeme.scan_wellShaped _ _ _ hscan l (hsub.subset hl)
  have hempty : Builder.empty.Sound := ⟨rfl, List.forall_mem_nil _⟩
  rw [directiveLiterals_refusals, ofTree]
  refine (items_decided hitems hshapes hempty).map fun b hb => ?_
  rw [build, closeGroup_of_current hb.current]
  exact hb.named

theorem refusal?_eq_some {span : Span} {literal : Node} {e : CompileError}
    (h : literal.refusal? span = some e) :
    (∃ text, e = .invalidNumber span text) ∨ ∃ u, e = .unrecognizedUnit span u := by
  unfold refusal? at h
  split at h
  · split at h
    · cases h
    · exact .inl ⟨_, (Option.some.inj h).symm⟩
  · simp only at h
    split at h
    · cases h
    · exact .inr ⟨_, (Option.some.inj h).symm⟩

/-- The ways in which compiling a text can end. A text that is no recipe has the fault of its grammar.
A recipe compiles if its literals are fine: numbers finite, and quantities in a unit. Otherwise the
error is that of the first literal that is not, the literals being listed as they stand in the text.
In a table every group starts with the name of its directive, so that binding always finds one. -/
theorem compile_outcome (source : String) :
    (∀ span fault, compile source ≠ .error (.malformedTree span fault)) ∧
    (∀ span e, compile source ≠ .error (.malformedLiteral span e)) ∧
    ((∃ e, compile source = .error (.grammar e)) ↔ ∃ e, Node.parse source = .error e) ∧
    match Node.parse source with
    | .error e => compile source = .error (.grammar e)
    | .ok tree =>
        (tree.directiveLiterals.Pairwise fun a b => a.2.start.offset < b.2.start.offset) ∧
        match tree.directiveLiterals.findSome? fun p => p.2.refusal? p.1 with
        | some e => compile source = .error e
        | none => ∃ table, compile source = .ok table ∧
            ∀ group ∈ table.groups, group.IsNamed ∧
              ∀ usage span, Arguments.bind usage group ≠ .error (.missingDirectiveName span) := by
  cases hparse : Node.parse source with
  | error e =>
      have hcompile : compile source = .error (.grammar e) := by
        rw [compile, hparse]
        rfl
      rw [hcompile]
      refine ⟨?_, ?_, ⟨fun _ => ⟨e, rfl⟩, fun _ => ⟨e, rfl⟩⟩, rfl⟩
      · intro span fault h
        cases h
      · intro span fault h
        cases h
  | ok tree =>
      have hcompile : compile source = ofTree tree := by
        rw [compile, hparse]
        rfl
      have hdecided := ofTree_decided hparse
      unfold Decided at hdecided
      rw [List.findSome?_map] at hdecided
      rw [hcompile]
      change match tree.directiveLiterals.findSome? fun p => p.2.refusal? p.1 with
        | some e => ofTree tree = .error e
        | none => ∃ table, ofTree tree = .ok table ∧ ∀ group ∈ table.groups, group.IsNamed at hdecided
      cases hfirst : tree.directiveLiterals.findSome? fun p => p.2.refusal? p.1 with
      | some e =>
          rw [hfirst] at hdecided
          obtain ⟨p, -, hp⟩ := List.exists_of_findSome?_eq_some hfirst
          rw [hdecided]
          refine ⟨?_, ?_, ?_, Node.directiveLiterals_ordered hparse, by simp only [hfirst]⟩
          · rintro span fault h
            rcases refusal?_eq_some hp with ⟨text, rfl⟩ | ⟨u, rfl⟩ <;> cases h
          · rintro span fault h
            rcases refusal?_eq_some hp with ⟨text, rfl⟩ | ⟨u, rfl⟩ <;> cases h
          · constructor
            · rintro ⟨e', h⟩
              rcases refusal?_eq_some hp with ⟨text, rfl⟩ | ⟨u, rfl⟩ <;> cases h
            · rintro ⟨e', h⟩
              cases h
      | none =>
          rw [hfirst] at hdecided
          obtain ⟨table, htable, hgroups⟩ := hdecided
          rw [htable]
          refine ⟨?_, ?_, ?_, Node.directiveLiterals_ordered hparse, ?_⟩
          · intro span fault h
            cases h
          · intro span fault h
            cases h
          · constructor
            · rintro ⟨e', h⟩
              cases h
            · rintro ⟨e', h⟩
              cases h
          · simp only [hfirst]
            refine ⟨table, rfl, fun group hgroup => ?_⟩
            exact ⟨hgroups group hgroup,
              Arguments.bind_ne_missingDirectiveName (hgroups group hgroup)⟩

end SymbolTable

end RowRecipe
