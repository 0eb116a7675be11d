import RowRecipe.Proofs.SymbolTable.Outcomes

/-!
The table of a tree at one glance. Building it step by step comes to this: each directive by itself
makes its group or is refused, the first refusal counts, and what the pragmas say is collected beside
that.
-/

namespace RowRecipe

namespace Node

/-- The group of a directive. -/
def group (node : Node) : Except CompileError TokenGroup :=
  (node.children.mapM (token node.span)).map fun tokens => ⟨tokens, node.span⟩

/-- The directives that the pragmas among these nodes ask for. -/
def asked (nodes : List Node) : List String :=
  (nodes.filter fun n => n.rule == .loadPragma).flatMap fun pragma =>
    (pragma.childrenBy .identifier).map fun name => Text.trimmed name.text

/-- The versions that the pragmas among these nodes declare. -/
def declared (nodes : List Node) : List String :=
  (nodes.filter fun n => n.rule == .versionPragma).flatMap fun pragma =>
    (pragma.children.take 1).map fun version => Text.trimmed version.text

/-- The rules of sentences. -/
def IsSentence (node : Node) : Prop :=
  node.rule = .directive ∨ node.rule = .loadPragma ∨ node.rule = .versionPragma

end Node

theorem Grammar.Item.isSentence {source : List Char} {ls : List Lexeme} {node : Node}
    (h : Grammar.Item source ls node) : node.IsSentence := by
  cases h with
  | loadables => exact .inr (.inl rfl)
  | version => exact .inr (.inr rfl)
  | directive => exact .inl rfl

namespace SymbolTable

open Node

namespace Builder

/-- Between two sentences no group is open. What was asked for and declared so far is all
remembered. -/
def state (groups : List TokenGroup) (asked versions : List String) : Builder :=
  ⟨⟨groups, asked.eraseDups, versions.getLast?⟩, none⟩

theorem eraseDups_concat_of_mem {names : List String} {name : String} (h : name ∈ names) :
    (names ++ [name]).eraseDups = names.eraseDups := by
  rw [List.eraseDups_append]
  simp [List.removeAll, h]

theorem eraseDups_concat_of_notMem {names : List String} {name : String} (h : name ∉ names) :
    (names ++ [name]).eraseDups = names.eraseDups ++ [name] := by
  have hremoved : [name].removeAll names = [name] := by
    simp [List.removeAll, h]
  rw [List.eraseDups_append, hremoved]
  rfl

/-- The names that were asked for are kept once each, in the order in which they came first. -/
theorem addLoadable_loadables {b : Builder} {asked : List String}
    (h : b.table.loadables = asked.eraseDups) (name : String) :
    (b.addLoadable name).table.loadables = (asked ++ [name]).eraseDups := by
  by_cases hname : name ∈ asked
  · have hmem : name ∈ b.table.loadables := by
      rw [h]
      exact List.mem_eraseDups.mpr hname
    rw [addLoadable_of_mem hmem, eraseDups_concat_of_mem hname, h]
  · have hmem : name ∉ b.table.loadables := by
      rw [h]
      exact fun hmem => hname (List.mem_eraseDups.mp hmem)
    rw [addLoadable_of_notMem hmem, eraseDups_concat_of_notMem hname, h]

theorem addLoadable_state (groups : List TokenGroup) (asked versions : List String) (name : String) :
    (state groups asked versions).addLoadable name = state groups (asked ++ [name]) versions := by
  have hloadables := addLoadable_loadables (b := state groups asked versions) rfl name
  change _ = Builder.mk ⟨groups, (asked ++ [name]).eraseDups, versions.getLast?⟩ none
  rw [← hloadables, addLoadable]
  split <;> rfl

theorem foldl_addLoadable_state (groups : List TokenGroup) (asked versions names : List String) :
    names.foldl (fun b name => b.addLoadable name) (state groups asked versions) =
      state groups (asked ++ names) versions := by
  induction names generalizing asked with
  | nil => rw [List.foldl_nil, List.append_nil]
  | cons name more ih =>
      rw [List.foldl_cons, addLoadable_state, ih, List.append_assoc]
      rfl

end Builder

open Builder

variable (groups : List TokenGroup) (names versions : List String)

theorem addItem_state_directive {node : Node} (h : node.rule = .directive) :
    addItem (state groups names versions) node =
      node.group.map fun made => state (groups ++ [made]) names versions := by
  rw [addItem_directive rfl h, group]
  cases node.children.mapM (token node.span) <;> rfl

theorem addItem_state_loadPragma {node : Node} (h : node.rule = .loadPragma) :
    addItem (state groups names versions) node =
      .ok (state groups (names ++ asked [node]) versions) := by
  have hasked : asked [node] = (node.childrenBy .identifier).map fun n => Text.trimmed n.text := by
    rw [asked, List.filter_cons_of_pos (by rw [h]; rfl), List.filter_nil, List.flatMap_singleton]
  have hfold := foldl_addLoadable_state groups names versions (asked [node])
  rw [hasked, List.foldl_map] at hfold
  rw [addItem, h, hasked]
  exact congrArg Except.ok hfold

theorem addItem_state_versionPragma {node : Node} (h : node.rule = .versionPragma) :
    addItem (state groups names versions) node =
      .ok (state groups names (versions ++ declared [node])) := by
  have hdeclared : declared [node] = (node.children.take 1).map fun n => Text.trimmed n.text := by
    rw [declared, List.filter_cons_of_pos (by rw [h]; rfl), List.filter_nil, List.flatMap_singleton]
  rw [addItem, h, hdeclared]
  cases node.children with
  | nil =>
      rw [List.take_nil, List.map_nil, List.append_nil]
      rfl
  | cons version more =>
      rw [List.take_one, List.head?_cons, Option.toList_some, List.map_singleton]
      change Except.ok ((state groups names versions).setVersion (Text.trimmed version.text)) = _
      simp only [state, List.getLast?_concat]
      rfl

/-- Sentence after sentence, groups are made until one is refused. -/
theorem foldlM_addItem_state {nodes : List Node} (h : ∀ n ∈ nodes, n.IsSentence) :
    nodes.foldlM addItem (state groups names versions) =
      ((nodes.filter fun n => n.rule == .directive).mapM group).map fun made =>
        state (groups ++ made) (names ++ asked nodes) (versions ++ declared nodes) := by
  induction nodes generalizing groups names versions with
  | nil =>
      change Except.ok (state groups names versions) =
        Except.ok (state (groups ++ []) (names ++ []) (versions ++ []))
      rw [List.append_nil, List.append_nil, List.append_nil]
  | cons node rest ih =>
      obtain ⟨hnode, hrest⟩ := List.forall_mem_cons.mp h
      have hasked : asked (node :: rest) = asked [node] ++ asked rest := by
        rw [← List.singleton_append, asked, List.filter_append, List.flatMap_append]
        rfl
      have hdeclared : declared (node :: rest) = declared [node] ++ declared rest := by
        rw [← List.singleton_append, declared, List.filter_append, List.flatMap_append]
        rfl
      rw [List.foldlM_cons, hasked, hdeclared]
      rcases hnode with hrule | hrule | hrule
      · have hnone : asked [node] = [] ∧ declared [node] = [] := by
          simp only [asked, declared, List.filter_cons, hrule]
          exact ⟨rfl, rfl⟩
        rw [addItem_state_directive groups names versions hrule,
          List.filter_cons_of_pos (by simpa using hrule), List.mapM_cons, hnone.1, hnone.2,
          List.nil_append, List.nil_append]
        cases node.group with
        | error e => rfl
        | ok made =>
            change rest.foldlM addItem (state (groups ++ [made]) names versions) = _
            rw [ih _ _ _ hrest]
            cases (rest.filter fun n => n.rule == .directive).mapM group with
            | error e => rfl
            | ok more =>
                change Except.ok (state (groups ++ [made] ++ more) _ _) =
                  Except.ok (state (groups ++ made :: more) _ _)
                rw [List.append_assoc, List.singleton_append]
      · have hnone : declared [node] = [] := by
          simp only [declared, List.filter_cons, hrule]
          rfl
        rw [addItem_state_loadPragma groups names versions hrule,
          List.filter_cons_of_neg (by rw [hrule]; decide), hnone, List.nil_append, ← List.append_assoc]
        exact ih groups _ versions hrest
      · have hnone : asked [node] = [] := by
          simp only [asked, List.filter_cons, hrule]
          rfl
        rw [addItem_state_versionPragma groups names versions hrule,
          List.filter_cons_of_neg (by rw [hrule]; decide), hnone, List.nil_append, ← List.append_assoc]
        exact ih groups names _ hrest

/-- The table of a tree of sentences. -/
theorem ofTree_eq {tree : Node} (h : ∀ n ∈ tree.children, n.IsSentence) :
    ofTree tree = ((tree.childrenBy .directive).mapM group).map fun groups =>
      ⟨groups, (asked tree.children).eraseDups, (declared tree.children).getLast?⟩ := by
  have hfold := foldlM_addItem_state [] [] [] h
  rw [List.nil_append, List.nil_append] at hfold
  change (tree.children.foldlM addItem (state [] [] [])).map build = _
  rw [hfold, childrenBy]
  cases (tree.children.filter fun n => n.rule == .directive).mapM group <;> rfl

/-- A text that is read compiles as its tree does, whose children are sentences. -/
theorem compile_of_parse {source : String} {tree : Node} (h : parse source = .ok tree) :
    compile source = ((tree.childrenBy .directive).mapM group).map fun groups =>
      ⟨groups, (asked tree.children).eraseDups, (declared tree.children).getLast?⟩ := by
  obtain ⟨ls, -, hitems, -⟩ := ofSource_eq_ok.mp (parse_eq_ok.mp h)
  have hsentences : ∀ n ∈ tree.children, n.IsSentence := by
    intro n hn
    obtain ⟨run, hitem⟩ := Outcome.exists_forall₂_iff.mp ⟨_, hitems.flip⟩ n hn
    exact Grammar.Item.isSentence hitem
  rw [compile, h, ← ofTree_eq hsentences]
  rfl

theorem compile_eq_error_of_parse {source : String} {e : GrammarError} (h : parse source = .error e) :
    compile source = .error (.grammar e) := by
  rw [compile, h]
  rfl

/-- The groups of a table are the ones of the directives of a tree. -/
theorem exists_tree_of_compile {source : String} {table : SymbolTable} (h : compile source = .ok table) :
    ∃ tree, parse source = .ok tree ∧
      (tree.childrenBy .directive).mapM group = .ok table.groups := by
  cases hparse : parse source with
  | error e =>
      rw [compile_eq_error_of_parse hparse] at h
      cases h
  | ok tree =>
      rw [compile_of_parse hparse] at h
      obtain ⟨groups, hgroups, rfl⟩ := Outcome.map_eq_ok.mp h
      exact ⟨tree, rfl, hgroups⟩

end SymbolTable

end RowRecipe
