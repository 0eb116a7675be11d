import RowRecipe.Proofs.SymbolTable.Names

/-!
Compiling and layout. Texts with the same lexemes differ in the blanks and comments between these only.
Both of them compile, or both are refused for the same reason; what their tables say is the same, but
for the blanks behind the marks of directives, which get into the names.
-/

namespace RowRecipe

/-- The two are the same error, of the same literal if it is about one; their places may differ. -/
inductive CompileError.Matches : CompileError → CompileError → Prop
  | grammar (e e' : GrammarError) : Matches (.grammar e) (.grammar e')
  | malformedLiteral (span span' : Span) (e : UnitError) :
      Matches (.malformedLiteral span e) (.malformedLiteral span' e)
  | unrecognizedUnit (span span' : Span) (e : UnitError) :
      Matches (.unrecognizedUnit span e) (.unrecognizedUnit span' e)
  | invalidNumber (span span' : Span) (text : String) :
      Matches (.invalidNumber span text) (.invalidNumber span' text)
  | malformedTree (span span' : Span) (fault fault' : TreeFault) :
      Matches (.malformedTree span fault) (.malformedTree span' fault')

/-- Both succeed with related results, or both fail with errors that match. -/
inductive Agree {α β : Type} (R : α → β → Prop) :
    Except CompileError α → Except CompileError β → Prop
  | ok {x : α} {y : β} (h : R x y) : Agree R (.ok x) (.ok y)
  | error {e e' : CompileError} (h : e.Matches e') : Agree R (.error e) (.error e')

namespace Agree

variable {α β γ δ : Type} {R : α → β → Prop} {S : γ → δ → Prop} {result : Except CompileError α}
  {result' : Except CompileError β}

theorem map {f : α → γ} {g : β → δ} (h : Agree R result result')
    (hmap : ∀ x y, R x y → S (f x) (g y)) : Agree S (result.map f) (result'.map g) := by
  cases h with
  | ok h => exact .ok (hmap _ _ h)
  | error h => exact .error h

theorem bind {f : α → Except CompileError γ} {g : β → Except CompileError δ}
    (h : Agree R result result') (hnext : ∀ x y, R x y → Agree S (f x) (g y)) :
    Agree S (result >>= f) (result' >>= g) := by
  cases h with
  | ok h => exact hnext _ _ h
  | error h => exact .error h

theorem mapM {f : α → Except CompileError γ} {g : β → Except CompileError δ} {xs : List α}
    {ys : List β} (h : List.Forall₂ R xs ys) (heach : ∀ x y, R x y → Agree S (f x) (g y)) :
    Agree (List.Forall₂ S) (xs.mapM f) (ys.mapM g) := by
  induction h with
  | nil => exact .ok .nil
  | cons hfirst _ ih =>
      rw [List.mapM_cons, List.mapM_cons]
      refine (heach _ _ hfirst).bind fun x y hxy => ih.bind fun xs ys hmore => ?_
      exact .ok (.cons hxy hmore)

theorem exists_of_ok {x : α} (h : Agree R (.ok x) result') : ∃ y, result' = .ok y ∧ R x y := by
  cases h with
  | ok h => exact ⟨_, rfl, h⟩

/-- What is known of the results may be used to relate them. -/
theorem imp {S : α → β → Prop} (h : Agree R result result')
    (himp : ∀ x y, result = .ok x → result' = .ok y → R x y → S x y) : Agree S result result' := by
  cases h with
  | ok h => exact .ok (himp _ _ rfl rfl h)
  | error h => exact .error h

/-- Lists with equal elements are equal. -/
theorem mapM_eq {f : α → Except CompileError γ} {g : β → Except CompileError γ} {xs : List α}
    {ys : List β} (h : List.Forall₂ R xs ys) (heach : ∀ x y, R x y → Agree Eq (f x) (g y)) :
    Agree Eq (xs.mapM f) (ys.mapM g) := by
  have hmapM := mapM h heach
  rwa [List.forall₂_eq_eq_eq] at hmapM

end Agree

namespace Node

variable {a b : Node} (span span' : Span)

theorem numeral_agree (h : a.text = b.text) : Agree Eq (numeral span a) (numeral span' b) := by
  rw [numeral, numeral, h]
  split
  · exact .ok rfl
  · exact .error (.invalidNumber span span' _)

theorem quantity_agree {U : Type} [UnitFamily U] (h : a.text = b.text) :
    Agree Eq (quantity span a : Except CompileError (Quantity U)) (quantity span' b) := by
  rw [quantity, quantity, h]
  cases Quantity.parse (U := U) (Text.trimmed b.text) with
  | ok value => exact .ok rfl
  | error e =>
      cases e with
      | format kind text => exact .error (.malformedLiteral span span' _)
      | unrecognizedUnit kind unit text => exact .error (.unrecognizedUnit span span' _)

theorem unquotedText_same (h : SameLeaf a b) : a.unquotedText = b.unquotedText := by
  rw [unquotedText, unquotedText, h.text]

theorem propertyValue_agree (h : SameLeaf a b) :
    Agree Eq (propertyValue span a) (propertyValue span' b) := by
  rw [propertyValue, propertyValue, h.rule]
  split
  · exact (numeral_agree span span' h.text).map fun _ _ => congrArg Token.numeric
  · rw [boolValue, boolValue, h.text]
    exact .ok rfl
  · exact .ok (congrArg Token.text (unquotedText_same h))
  · exact .ok (congrArg Token.text (unquotedText_same h))
  · exact .error (.malformedTree span span' _ _)

theorem propertyEntry_agree (h : SameBy SameLeaf a b) :
    Agree Eq (propertyEntry span a) (propertyEntry span' b) := by
  have hchildren := h.children
  rw [propertyEntry, propertyEntry]
  generalize a.children = parts, b.children = parts' at hchildren ⊢
  rcases hchildren with _ | ⟨hkey, _ | ⟨hvalue, _ | _⟩⟩
  · exact .error (.malformedTree span span' _ _)
  · exact .error (.malformedTree span span' _ _)
  · exact (propertyValue_agree span span' hvalue).map
      fun _ _ htoken => Prod.ext (unquotedText_same hkey) htoken
  · exact .error (.malformedTree span span' _ _)

theorem numericRange_agree (h : SameBy SameLeaf a b) :
    Agree Eq (numericRange span a) (numericRange span' b) := by
  have hchildren := h.children
  rw [numericRange, numericRange]
  generalize a.children = parts, b.children = parts' at hchildren ⊢
  rcases hchildren with _ | ⟨hlow, _ | ⟨hhigh, _ | ⟨hlabel, _ | _⟩⟩⟩
  · exact .error (.malformedTree span span' _ _)
  · exact .error (.malformedTree span span' _ _)
  · exact .error (.malformedTree span span' _ _)
  · refine (numeral_agree span span' hlow.text).bind fun low _ hlow => ?_
    refine (numeral_agree span span' hhigh.text).bind fun high _ hhigh => ?_
    rw [hlow, hhigh, unquotedText_same hlabel]
    exact .ok rfl
  · exact .error (.malformedTree span span' _ _)

theorem childrenBy_same {R : Node → Node → Prop} (h : SameBy R a b)
    (hrule : ∀ x y, R x y → x.rule = y.rule) (rule : Rule) :
    List.Forall₂ R (a.childrenBy rule) (b.childrenBy rule) := by
  refine List.rel_filter (fun x y hxy => ?_) h.children
  change (x.rule == rule) = true ↔ (y.rule == rule) = true
  rw [hrule x y hxy]

theorem map_childrenBy_same {γ : Type} {f : Node → γ} (h : SameBy SameLeaf a b)
    (hf : ∀ x y, SameLeaf x y → f x = f y) (rule : Rule) :
    (a.childrenBy rule).map f = (b.childrenBy rule).map f :=
  Outcome.map_eq_map_of_forall₂ ((childrenBy_same h (fun _ _ => SameLeaf.rule) rule).imp hf)

theorem token_leaf (h : SameLeaf a b) : Agree Eq (token span a) (token span' b) := by
  have hnumeral := numeral_agree span span' h.text
  have hsize := quantity_agree (U := ByteUnit) span span' h.text
  have hduration := quantity_agree (U := TimeUnit) span span' h.text
  obtain ⟨rule, text, start, stop, children⟩ := a
  obtain ⟨rule', text', start', stop', children'⟩ := b
  obtain ⟨hrule, htext, hchildren, hchildren'⟩ := h
  obtain rfl : rule = rule' := hrule
  obtain rfl : text = text' := htext
  obtain rfl : children = [] := hchildren
  obtain rfl : children' = [] := hchildren'
  rw [token, token]
  cases rule with
  | number => exact hnumeral.map fun _ _ => congrArg Token.numeric
  | byteSize => exact hsize.map fun _ _ => congrArg Token.byteSize
  | timeDuration => exact hduration.map fun _ _ => congrArg Token.timeDuration
  | recipe | directive | property | range | loadPragma | versionPragma =>
      exact .error (.malformedTree span span' _ _)
  | _ => exact .ok rfl

theorem token_list (hrule : a.rule ∈ [.columnList, .textList, .boolList, .numberList])
    (h : SameBy SameLeaf a b) : Agree Eq (token span a) (token span' b) := by
  simp only [List.mem_cons, List.not_mem_nil, or_false] at hrule
  rcases hrule with hrule | hrule | hrule | hrule
  · have hnames := map_childrenBy_same (f := columnName) h
      (fun x y hxy => by rw [columnName, columnName, hxy.text]) .column
    rw [token, token, ← h.rule, hrule]
    exact .ok (congrArg Token.columnNameList hnames)
  · rw [token, token, ← h.rule, hrule]
    exact .ok (congrArg Token.textList (map_childrenBy_same h (fun _ _ => unquotedText_same) .text))
  · have hvalues := map_childrenBy_same (f := boolValue) h
      (fun x y hxy => by rw [boolValue, boolValue, hxy.text]) .bool
    rw [token, token, ← h.rule, hrule]
    exact .ok (congrArg Token.boolList hvalues)
  · rw [token, token, ← h.rule, hrule]
    have hnumbers := childrenBy_same h (fun _ _ => SameLeaf.rule) .number
    exact (Agree.mapM_eq hnumbers fun _ _ hxy => numeral_agree span span' hxy.text).map
      fun _ _ => congrArg Token.numericList

theorem token_entries (hrule : a.rule ∈ [.rangeList, .propertyList])
    (h : SameBy (SameBy SameLeaf) a b) : Agree Eq (token span a) (token span' b) := by
  have hentries := childrenBy_same h fun _ _ => SameBy.rule
  simp only [List.mem_cons, List.not_mem_nil, or_false] at hrule
  rcases hrule with hrule | hrule
  · rw [token, token, ← h.rule, hrule]
    exact (Agree.mapM_eq (hentries .range) fun _ _ => numericRange_agree span span').map
      fun _ _ => congrArg Token.ranges
  · rw [token, token, ← h.rule, hrule]
    exact (Agree.mapM_eq (hentries .property) fun _ _ => propertyEntry_agree span span').map
      fun _ _ hxy => by rw [hxy]

/-- Arguments of the same leaves have the same token, or are refused for the same literal. -/
theorem token_agree (h : SameArgument a b) : Agree Eq (token span a) (token span' b) := by
  cases h with
  | leaf h => exact token_leaf span span' h
  | list hrule h => exact token_list span span' hrule h
  | entries hrule h => exact token_entries span span' hrule h
  | expression hrule hrule' h =>
      rw [token, token, hrule, hrule']
      exact .ok (congrArg (fun body => Token.expression (String.ofList body)) h)

theorem IsCommand.token (h : a.IsCommand) (span : Span) :
    ∃ name, a.token span = .ok (.directiveName name) := by
  rcases h with h | h
  · rw [Node.token, h]
    exact ⟨_, rfl⟩
  · rw [Node.token, h]
    exact ⟨_, rfl⟩

theorem SameItem.rule (h : SameItem a b) : a.rule = b.rule := by
  cases h with
  | pragma _ h => exact h.rule
  | directive hrule hrule' => exact hrule.trans hrule'.symm

theorem SameItem.leaves (h : SameItem a b) (hrule : a.rule ≠ .directive) : SameBy SameLeaf a b := by
  cases h with
  | pragma _ h => exact h
  | directive hdirective => exact (hrule hdirective).elim

theorem group_agree (h : SameItem a b) :
    Agree (fun group group' : TokenGroup => group.tokens.tail = group'.tokens.tail) a.group b.group := by
  cases h with
  | pragma _ h =>
      refine (Agree.mapM_eq h.children fun _ _ => token_leaf a.span b.span).map fun tokens tokens' h => ?_
      exact congrArg List.tail h
  | directive _ _ hchildren hchildren' hname hname' h =>
      obtain ⟨word, hword⟩ := hname.token a.span
      obtain ⟨word', hword'⟩ := hname'.token b.span
      have htokens := Agree.mapM_eq (f := token a.span) (g := token b.span) h fun _ _ => token_agree a.span b.span
      rw [group, group, hchildren, hchildren', List.mapM_cons, List.mapM_cons, hword, hword']
      refine Agree.map (htokens.bind fun tokens tokens' h => ?_) fun _ _ h => h
      exact .ok h

section Nodes

variable {nodes nodes' : List Node}

theorem filter_same (h : List.Forall₂ SameItem nodes nodes') (rule : Rule) :
    List.Forall₂ (fun x y => x.rule = rule ∧ SameItem x y)
      (nodes.filter fun n => n.rule == rule) (nodes'.filter fun n => n.rule == rule) := by
  refine (List.forall₂_and_left _ _).mpr ⟨fun x hx => beq_iff_eq.mp (List.mem_filter.mp hx).2, ?_⟩
  refine List.rel_filter (fun x y hxy => ?_) h
  change (x.rule == rule) = true ↔ (y.rule == rule) = true
  rw [hxy.rule]

theorem asked_same (h : List.Forall₂ SameItem nodes nodes') : asked nodes = asked nodes' := by
  rw [asked, asked, List.flatMap_def, List.flatMap_def]
  refine congrArg List.flatten (Outcome.map_eq_map_of_forall₂ ((filter_same h _).imp ?_))
  rintro x y ⟨hrule, hxy⟩
  refine map_childrenBy_same (hxy.leaves ?_) (fun _ _ h => congrArg Text.trimmed h.text) _
  rw [hrule]
  decide

theorem declared_same (h : List.Forall₂ SameItem nodes nodes') :
    declared nodes = declared nodes' := by
  rw [declared, declared, List.flatMap_def, List.flatMap_def]
  refine congrArg List.flatten (Outcome.map_eq_map_of_forall₂ ((filter_same h _).imp ?_))
  rintro x y ⟨hrule, hxy⟩
  have hleaves : SameBy SameLeaf x y := hxy.leaves (by rw [hrule]; decide)
  refine Outcome.map_eq_map_of_forall₂ ((List.forall₂_take 1 hleaves.children).imp ?_)
  exact fun _ _ h => congrArg Text.trimmed h.text

end Nodes

end Node

theorem Lexeme.Heading.trimmed_text {heading : Lexeme.Heading}
    (h : ∀ c ∈ heading.gap, Lexeme.isSkipped c = true) :
    Text.trimmed heading.text = Text.trimmed heading.name.content := by
  have hblank : ∀ c ∈ heading.gap, Text.isBlank c = true :=
    fun c hc => Text.isBlank_of_isSkipped (h c hc)
  simp only [Text.trimmed, text, content, String.toList_ofList, Text.trim, Text.trimStart,
    List.dropWhile_append_of_pos hblank]

theorem TokenGroup.tokens_of_directiveName? {group : TokenGroup} {name : String}
    (h : group.directiveName? = some name) :
    group.tokens = .directiveName name :: group.tokens.tail := by
  unfold directiveName? at h
  split at h
  · rename_i htokens
    rw [htokens, Option.some.inj h]
    rfl
  · cases h

namespace SymbolTable

open Node Lexeme

variable {source source' : String} {ls ls' : List Lexeme}

/-- The two say the same about everything but the places, if the blanks around the names of directives
do not count. -/
structure SameUpToGaps (table table' : SymbolTable) : Prop where
  loadables : table.loadables = table'.loadables
  version : table.version = table'.version
  names : table.groups.map (fun group => group.directiveName?.map Text.trimmed) =
    table'.groups.map fun group => group.directiveName?.map Text.trimmed
  arguments : table.groups.map (fun group => group.tokens.tail) =
    table'.groups.map fun group => group.tokens.tail

/-- The two say the same about everything but the places and the names of the directives. -/
structure SameButNames (table table' : SymbolTable) : Prop where
  loadables : table.loadables = table'.loadables
  version : table.version = table'.version
  arguments : table.groups.map (fun group => group.tokens.tail) =
    table'.groups.map fun group => group.tokens.tail

/-- The tables of two recipes say the same about everything but the names of the directives, if the
sentences of the recipes are the same. -/
theorem compile_items {tree tree' : Node} (hparse : parse source = .ok tree)
    (hparse' : parse source' = .ok tree') (hitems : List.Forall₂ SameItem tree.children tree'.children) :
    Agree SameButNames (compile source) (compile source') := by
  have hgroups := Agree.mapM (filter_same hitems .directive) fun _ _ h => group_agree h.2
  rw [compile_of_parse hparse, compile_of_parse hparse']
  refine Agree.map hgroups fun groups groups' h => ?_
  constructor
  case loadables => exact congrArg List.eraseDups (asked_same hitems)
  case version => exact congrArg List.getLast? (declared_same hitems)
  case arguments => exact Outcome.map_eq_map_of_forall₂ h

theorem compile_agree (hscan : scan source.toList 0 = .ok ls)
    (hscan' : scan source'.toList 0 = .ok ls') (hsame : List.Forall₂ Same ls ls') :
    Agree SameButNames (compile source) (compile source') := by
  cases hparse : parse source with
  | ok tree =>
      obtain ⟨tree', hparse', hitems⟩ :=
        Grammar.parse_recast hscan hscan' (.of_forall₂ hsame) hparse
      exact compile_items hparse hparse' hitems
  | error e =>
      cases hparse' : parse source' with
      | ok tree' =>
          have hsame' : List.Forall₂ Same ls' ls := (hsame.imp fun _ _ h => h.symm).flip
          obtain ⟨tree, htree, -⟩ :=
            Grammar.parse_recast hscan' hscan (.of_forall₂ hsame') hparse'
          cases hparse.symm.trans htree
      | error e' =>
          rw [compile_eq_error_of_parse hparse, compile_eq_error_of_parse hparse']
          exact .error (.grammar e e')

/-- The names of the lexemes that head the directives. -/
def headedBy (source : String) (ls : List Lexeme) : List String :=
  (headings source.toList ls).map fun heading => heading.name.content

theorem headedBy_same (h : List.Forall₂ Same ls ls') : headedBy source ls = headedBy source' ls' :=
  Outcome.map_eq_map_of_forall₂
    ((headings_recast _ _ (fun _ _ h => h.kind) (.of_forall₂ h)).imp fun _ _ h => h.content)

theorem names_trimmed {table : SymbolTable} (hscan : scan source.toList 0 = .ok ls)
    (h : compile source = .ok table) :
    table.groups.map (fun group => group.directiveName?.map Text.trimmed) =
      (headedBy source ls).map fun name => some (Text.trimmed name) := by
  have hnames := congrArg (List.map (Option.map Text.trimmed)) (compile_names hscan h)
  rw [List.map_map, List.map_map] at hnames
  rw [headedBy, List.map_map]
  refine hnames.trans (List.map_congr_left fun heading hmem => ?_)
  exact congrArg some (Heading.trimmed_text (headings_gap hscan heading hmem).1)

theorem names_of_closed {table : SymbolTable} (hscan : scan source.toList 0 = .ok ls)
    (h : compile source = .ok table) (hclosed : Closed ls) :
    table.groups.map TokenGroup.directiveName? = (headedBy source ls).map some := by
  rw [headedBy, List.map_map]
  refine (compile_names hscan h).trans (List.map_congr_left fun heading hmem => ?_)
  rw [Heading.text, (headings_gap hscan heading hmem).2 hclosed]
  rfl

/-- The tokens of a group are its name and its arguments. -/
theorem tokens_of_names {groups : List TokenGroup} {names : List String}
    (h : groups.map TokenGroup.directiveName? = names.map some) :
    groups.map TokenGroup.tokens = List.zipWith (fun name rest => .directiveName name :: rest) names
      (groups.map fun group => group.tokens.tail) := by
  induction names generalizing groups with
  | nil =>
      obtain rfl := List.map_eq_nil_iff.mp h
      rfl
  | cons name more ih =>
      obtain ⟨group, others, rfl, hname, hothers⟩ := List.map_eq_cons_iff.mp h
      rw [List.map_cons, List.map_cons, List.zipWith_cons_cons, ih hothers,
        ← TokenGroup.tokens_of_directiveName? hname]

/-- Two texts with the same lexemes compile to tables that say the same, or are refused for the same
reason. The name of a group is the lexeme that names the directive, with the blanks in front of it that
stand behind the mark. So the tokens of the groups are the same ones when no mark has blanks behind
it, and else they may differ in these blanks. -/
theorem compile_layout (hscan : scan source.toList 0 = .ok ls)
    (hscan' : scan source'.toList 0 = .ok ls') (hsame : List.Forall₂ Same ls ls') :
    Agree (fun table table' => SameUpToGaps table table' ∧
        (Closed ls → Closed ls' →
          table.groups.map TokenGroup.tokens = table'.groups.map TokenGroup.tokens))
      (compile source) (compile source') ∧
    ∀ table, compile source = .ok table →
      table.groups.map TokenGroup.directiveName? =
        (headings source.toList ls).map (fun heading => some heading.text) ∧
      ∀ heading ∈ headings source.toList ls,
        (∀ c ∈ heading.gap, isSkipped c = true) ∧ (Closed ls → heading.gap = []) := by
  refine ⟨(compile_agree hscan hscan' hsame).imp fun table table' h h' hagree => ?_,
    fun table h => ⟨compile_names hscan h, headings_gap hscan⟩⟩
  have hheaded : headedBy source ls = headedBy source' ls' := headedBy_same hsame
  constructor
  · refine ⟨hagree.loadables, hagree.version, ?_, hagree.arguments⟩
    rw [names_trimmed hscan h, names_trimmed hscan' h', hheaded]
  · intro hclosed hclosed'
    rw [tokens_of_names (names_of_closed hscan h hclosed),
      tokens_of_names (names_of_closed hscan' h' hclosed'), hheaded, hagree.arguments]

/-- Blanks and a comment that are not behind the mark make no difference. -/
theorem compile_layout_comment :
    let ls : List Lexeme :=
      [⟨.bang, ['!'], 0⟩, ⟨.identifier, "keep".toList, 1⟩, ⟨.column, ":a".toList, 6⟩]
    let ls' : List Lexeme :=
      [⟨.bang, ['!'], 1⟩, ⟨.identifier, "keep".toList, 2⟩, ⟨.column, ":a".toList, 9⟩]
    scan "!keep :a".toList 0 = .ok ls ∧ scan " !keep   :a // rest".toList 0 = .ok ls' ∧
      List.Forall₂ Same ls ls' ∧ Closed ls ∧ Closed ls' ∧
      ∃ table table', compile "!keep :a" = .ok table ∧ compile " !keep   :a // rest" = .ok table' ∧
        table.groups.map TokenGroup.tokens = table'.groups.map TokenGroup.tokens := by
  intro ls ls'
  have hscan : scan "!keep :a".toList 0 = .ok ls := by cbv
  have hscan' : scan " !keep   :a // rest".toList 0 = .ok ls' := by cbv
  have hsame : List.Forall₂ Same ls ls' :=
    .cons ⟨rfl, rfl⟩ (.cons ⟨rfl, rfl⟩ (.cons ⟨rfl, rfl⟩ .nil))
  have hclosed : Closed ls ∧ Closed ls' :=
    ⟨.cons_cons (fun _ => rfl) (.cons_cons (fun h => by cases h) (.singleton _)),
      .cons_cons (fun _ => rfl) (.cons_cons (fun h => by cases h) (.singleton _))⟩
  obtain ⟨table, htable⟩ : ∃ table, compile "!keep :a" = .ok table := ⟨_, by cbv⟩
  refine ⟨hscan, hscan', hsame, hclosed.1, hclosed.2, table, ?_⟩
  have hagree := (compile_layout hscan hscan' hsame).1
  rw [htable] at hagree
  cases hcompile : compile " !keep   :a // rest" with
  | ok table' =>
      rw [hcompile] at hagree
      cases hagree with
      | ok h => exact ⟨table', htable, rfl, h.2 hclosed.1 hclosed.2⟩
  | error e =>
      rw [hcompile] at hagree
      cases hagree

/-- A blank behind the mark makes a difference, although the lexemes are the same ones. -/
theorem compile_gap_ne :
    ¬ ∀ (source source' : String) (ls ls' : List Lexeme), scan source.toList 0 = .ok ls →
      scan source'.toList 0 = .ok ls' → List.Forall₂ Same ls ls' →
      Agree (fun table table' =>
        table.groups.map TokenGroup.tokens = table'.groups.map TokenGroup.tokens)
        (compile source) (compile source') := by
  intro h
  have hscan : scan "!keep".toList 0 =
      .ok [⟨.bang, ['!'], 0⟩, ⟨.identifier, "keep".toList, 1⟩] := by cbv
  have hscan' : scan "! keep".toList 0 =
      .ok [⟨.bang, ['!'], 0⟩, ⟨.identifier, "keep".toList, 2⟩] := by cbv
  have hagree := h _ _ _ _ hscan hscan' (.cons ⟨rfl, rfl⟩ (.cons ⟨rfl, rfl⟩ .nil))
  have htable : compile "!keep" =
      .ok ⟨[⟨[.directiveName "keep"], ⟨1, 0, 1, 5, "!keep"⟩⟩], [], none⟩ := by cbv
  have htable' : compile "! keep" =
      .ok ⟨[⟨[.directiveName " keep"], ⟨1, 0, 1, 6, "! keep"⟩⟩], [], none⟩ := by cbv
  rw [htable, htable'] at hagree
  cases hagree with
  | ok hsame =>
      have hname := Token.directiveName.inj (List.cons.inj (List.cons.inj hsame).1).1
      exact absurd hname (by decide)

end SymbolTable

end RowRecipe
