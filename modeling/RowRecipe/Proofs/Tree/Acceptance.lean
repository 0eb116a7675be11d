import Mathlib
import RowRecipe.Proofs.Tree.Extents
import RowRecipe.Proofs.Tree.Joining

/-!
What the parser accepts. A run is read exactly when it is an item of the grammar, so a text is a
recipe exactly when it falls into lexemes and all of their runs are items; the tree then has one child
for each run, which covers it.
-/

namespace RowRecipe

open Outcome

namespace Grammar

open Node

variable {source : List Char} {ending : Ending} {ls rest : List Lexeme} {node : Node}

theorem command_eq_ok : command source ending ls = .ok (node, rest) ↔
    ∃ taken, ls = taken ++ rest ∧ Command source taken node := by
  constructor
  · intro h
    cases ls with
    | nil => cases h
    | cons l left =>
        by_cases hname : l.kind = .identifier
        · simp only [command, if_pos hname] at h
          obtain ⟨rfl, rfl⟩ := Prod.mk.inj (Except.ok.inj h)
          exact ⟨[l], rfl, .name hname⟩
        · by_cases hbang : l.kind = .bang
          · simp only [command, if_neg hname, if_pos hbang] at h
            obtain ⟨⟨name, left'⟩, hread, hnext⟩ := bind_eq_ok.mp h
            obtain ⟨rfl, hkind⟩ := Ending.expect_eq_ok.mp hread
            obtain ⟨rfl, rfl⟩ := Prod.mk.inj (Except.ok.inj hnext)
            exact ⟨[l, name], rfl, .custom hbang hkind⟩
          · simp only [command, if_neg hname, if_neg hbang] at h
            cases h
  · rintro ⟨taken, rfl, htaken⟩
    cases htaken with
    | name hname => simp only [List.cons_append, command, if_pos hname, List.nil_append]
    | @custom bang name hbang hname =>
        have hne : bang.kind ≠ .identifier := by
          rw [hbang]
          decide
        have hread : ending.expect .customName .identifier (name :: rest) = .ok (name, rest) :=
          Ending.expect_eq_ok.mpr ⟨rfl, hname⟩
        simp only [List.cons_append, List.nil_append, command, if_neg hne, if_pos hbang, hread]
        rfl

/-- The directives among the items, read with their lexemes as fuel. -/
theorem directive_eq_ok : directive source ending ls = .ok node ↔
    ∃ taken more name arguments, ls = taken ++ more ∧ Command source taken name ∧
      Arguments source more arguments ∧ node = coverNodes source .directive (name :: arguments) := by
  constructor
  · intro h
    obtain ⟨⟨name, left⟩, hname, hnext⟩ := bind_eq_ok.mp h
    obtain ⟨taken, htaken, hcommand⟩ := command_eq_ok.mp hname
    obtain ⟨nodes, hnodes, hnode⟩ := bind_eq_ok.mp hnext
    obtain rfl := Except.ok.inj hnode
    exact ⟨taken, left, name, nodes, htaken, hcommand, arguments_sound hnodes, rfl⟩
  · rintro ⟨taken, more, name, nodes, rfl, hcommand, hnodes, rfl⟩
    refine bind_eq_ok.mpr ⟨(name, more), command_eq_ok.mpr ⟨taken, rfl, hcommand⟩, ?_⟩
    exact bind_eq_ok.mpr ⟨nodes, arguments_complete ending hnodes (Nat.le_refl _), rfl⟩

/-- Of the lexemes after the first one, a node knows only the last. -/
theorem coverLexemes_congr {start : Lexeme} {more others : List Lexeme}
    (h : more.getLast? = others.getLast?) (rule : Rule) (nodes : List Node) :
    coverLexemes source rule start more nodes = coverLexemes source rule start others nodes := by
  rw [coverLexemes, coverLexemes, h]

theorem loadPragma_sound {start word : Lexeme} (hstart : start.kind = .pragma)
    (hkind : word.kind = .identifier) (hword : word.content = "load-directives")
    (h : loadPragma source ending start ls = .ok (node, [])) :
    Item source (start :: word :: ls) node := by
  obtain ⟨⟨first, left⟩, hfirst, h₁⟩ := bind_eq_ok.mp h
  obtain ⟨⟨more, left'⟩, hmore, h₂⟩ := bind_eq_ok.mp h₁
  obtain ⟨rfl, rfl⟩ := Prod.mk.inj (Except.ok.inj h₂)
  obtain ⟨rfl, hidentifier⟩ := Ending.expect_eq_ok.mp hfirst
  obtain ⟨taken, rfl, hnames, hlast⟩ := items_sound source .identifier hidentifier hmore
  rw [List.append_nil]
  rw [coverLexemes_congr hlast.symm]
  exact .loadables hstart hkind hword hnames

theorem loadPragma_complete {start : Lexeme} {names : List Lexeme} {nodes : List Node}
    (h : Separated Comma (Single source .identifier .identifier) names nodes) :
    loadPragma source ending start names =
      .ok (coverLexemes source .loadPragma start names nodes, []) := by
  obtain ⟨first, taken, more, rfl, hfirst, rfl, hitems, hlast, -⟩ :=
    items_complete ending h stops_nil
  rw [List.append_nil] at hitems
  refine bind_eq_ok.mpr ⟨_, Ending.expect_eq_ok.mpr ⟨rfl, hfirst⟩, ?_⟩
  refine bind_eq_ok.mpr ⟨_, hitems, ?_⟩
  rw [coverLexemes_congr hlast]

theorem versionPragma_eq_ok {start : Lexeme} :
    versionPragma source ending start ls = .ok (node, rest) ↔
      ∃ (value : Lexeme) (rule : Rule), ls = value :: rest ∧
        (value.kind, rule) ∈ [(.number, .number), (.identifier, .identifier)] ∧
        node = coverLexemes source .versionPragma start [value] [leaf source rule value] := by
  have hkinds : ([(.number, .number), (.identifier, .identifier)].map
      (Prod.fst : Lexeme.Kind × Rule → Lexeme.Kind)).Nodup := by decide
  constructor
  · intro h
    obtain ⟨⟨⟨rule, value⟩, left⟩, hvalue, hnext⟩ := bind_eq_ok.mp h
    obtain ⟨rfl, hkind⟩ := (Ending.expectOneOf_eq_ok hkinds).mp hvalue
    obtain ⟨rfl, rfl⟩ := Prod.mk.inj (Except.ok.inj hnext)
    exact ⟨value, rule, rfl, hkind, rfl⟩
  · rintro ⟨value, rule, rfl, hkind, rfl⟩
    exact bind_eq_ok.mpr ⟨_, (Ending.expectOneOf_eq_ok hkinds).mpr ⟨rfl, hkind⟩, rfl⟩

theorem pragma_sound {start : Lexeme} (hstart : start.kind = .pragma)
    (h : pragma source ending start ls = .ok node) : Item source (start :: ls) node := by
  obtain ⟨⟨word, left⟩, hread, h₁⟩ := bind_eq_ok.mp h
  obtain ⟨rfl, hkind⟩ := Ending.expect_eq_ok.mp hread
  have hfinish : ∀ {result : Except GrammarFault (Node × List Lexeme)},
      (result >>= fun made =>
        if made.2.isEmpty then .ok made.1 else .error (ending.fault .terminator made.2)) = .ok node →
      result = .ok (node, []) := by
    intro result hresult
    obtain ⟨⟨made, others⟩, rfl, hmade⟩ := bind_eq_ok.mp hresult
    cases others with
    | nil =>
        obtain rfl := Except.ok.inj hmade
        rfl
    | cons l others => cases hmade
  by_cases hload : word.content = "load-directives"
  · simp only [if_pos hload] at h₁
    exact loadPragma_sound hstart hkind hload (hfinish h₁)
  · by_cases hversion : word.content = "version"
    · simp only [if_neg hload, if_pos hversion] at h₁
      obtain ⟨value, rule, rfl, hvalue, rfl⟩ := versionPragma_eq_ok.mp (hfinish h₁)
      exact .version hstart hkind hversion hvalue
    · simp only [if_neg hload, if_neg hversion] at h₁
      cases h₁

/-- A run is read exactly when it is an item of the grammar. -/
theorem ofRun_eq_ok {run : Run} : ofRun source run = .ok node ↔ Item source run.lexemes node := by
  obtain ⟨ls, ending⟩ := run
  constructor
  · intro h
    have hdirective : directive source ending ls = .ok node → Item source ls node := by
      intro h
      obtain ⟨taken, more, name, nodes, rfl, hname, hnodes, rfl⟩ := directive_eq_ok.mp h
      exact .directive hname hnodes
    cases ls with
    | nil => exact hdirective h
    | cons l rest =>
        by_cases hpragma : l.kind = .pragma
        · simp only [ofRun, if_pos hpragma] at h
          exact pragma_sound hpragma h
        · simp only [ofRun, if_neg hpragma] at h
          exact hdirective h
  · intro h
    cases h with
    | @loadables start word names nodes hstart hkind hword hnames =>
        simp only [ofRun, if_pos hstart]
        refine bind_eq_ok.mpr ⟨_, Ending.expect_eq_ok.mpr ⟨rfl, hkind⟩, ?_⟩
        simp only [if_pos hword]
        exact bind_eq_ok.mpr ⟨_, loadPragma_complete hnames, rfl⟩
    | @version start word value rule hstart hkind hword hvalue =>
        have hne : word.content ≠ "load-directives" := by
          rw [hword]
          decide
        simp only [ofRun, if_pos hstart]
        refine bind_eq_ok.mpr ⟨_, Ending.expect_eq_ok.mpr ⟨rfl, hkind⟩, ?_⟩
        simp only [if_neg hne, if_pos hword]
        exact bind_eq_ok.mpr ⟨_, versionPragma_eq_ok.mpr ⟨value, rule, rfl, hvalue, rfl⟩, rfl⟩
    | @directive taken more name nodes hname hnodes =>
        have hread : directive source ending (taken ++ more) =
            .ok (coverNodes source .directive (name :: nodes)) :=
          directive_eq_ok.mpr ⟨taken, more, name, nodes, rfl, hname, hnodes, rfl⟩
        cases hname with
        | @name l hkind =>
            have hne : l.kind ≠ .pragma := by
              rw [hkind]
              decide
            exact (if_neg hne).trans hread
        | @custom bang _ hbang _ =>
            have hne : bang.kind ≠ .pragma := by
              rw [hbang]
              decide
            exact (if_neg hne).trans hread

/-- The runs that are read are the maximal ones, with nothing left out but empty ones. -/
theorem lexemes_split (endOffset : Nat) (ls : List Lexeme) :
    (Run.split endOffset [] ls).map Run.lexemes = Lexeme.runs ls := by
  -- What is collected for the first run is a first part of it.
  have hcurrent : ∀ current : List Lexeme, (∀ l ∈ current, l.kind.isTerminator = false) →
      (Run.split endOffset current ls).map Run.lexemes = Lexeme.runs (current ++ ls) := by
    induction ls with
    | nil =>
        intro current hcurrent
        rw [List.append_nil, Lexeme.runs, List.splitOnP_eq_singleton hcurrent]
        cases current <;> rfl
    | cons l rest ih =>
        intro current hcurrent
        cases hl : l.kind.isTerminator with
        | true =>
            have hnil := ih [] (List.forall_mem_nil _)
            rw [List.nil_append] at hnil
            have hruns : Lexeme.runs (current ++ l :: rest) =
                (if current.isEmpty then Lexeme.runs rest else current :: Lexeme.runs rest) := by
              rw [Lexeme.runs, List.splitOnP_append_cons_of_forall_mem hcurrent l hl]
              cases current <;> rfl
            rw [hruns]
            cases current with
            | nil => simpa [Run.split, hl] using hnil
            | cons => simpa [Run.split, hl] using hnil
        | false =>
            have hmore := ih (current ++ [l]) (by
              intro x hx
              rcases List.mem_append.mp hx with hx | hx
              · exact hcurrent x hx
              · rw [List.mem_singleton.mp hx]
                exact hl)
            rw [List.append_assoc] at hmore
            simpa [Run.split, hl] using hmore
  have hnil := hcurrent [] (List.forall_mem_nil _)
  rwa [List.nil_append] at hnil

theorem flatten_split_sublist (endOffset : Nat) (current ls : List Lexeme) :
    ((Run.split endOffset current ls).map Run.lexemes).flatten.Sublist (current ++ ls) := by
  fun_induction Run.split endOffset current ls with
  | case1 => exact List.nil_sublist _
  | case2 current =>
      change (current ++ []).Sublist (current ++ [])
      exact List.Sublist.refl _
  | case3 current l rest _ _ ih =>
      rw [List.nil_append] at ih
      exact (ih.cons l).trans (List.sublist_append_right current _)
  | case4 current l rest _ _ ih =>
      rw [List.nil_append] at ih
      rw [List.map_cons, List.flatten_cons]
      exact List.Sublist.append (List.Sublist.refl current) (ih.cons l)
  | case5 current l rest _ ih =>
      rw [List.append_assoc] at ih
      exact ih

theorem flatten_runs_sublist (ls : List Lexeme) : (Lexeme.runs ls).flatten.Sublist ls := by
  rw [← lexemes_split 0 ls]
  exact flatten_split_sublist 0 [] ls

end Grammar

namespace Node

open Grammar

variable {source : List Char}

theorem ofSource_eq_ok {tree : Node} : ofSource source = .ok tree ↔
    ∃ ls, Lexeme.scan source 0 = .ok ls ∧
      List.Forall₂ (Item source) (Lexeme.runs ls) tree.children ∧
      tree = cover source .recipe 0 (Text.byteLength source) tree.children := by
  have hitems : ∀ {ls : List Lexeme} {nodes : List Node},
      (Run.split (Text.byteLength source) [] ls).mapM (ofRun source) = .ok nodes ↔
        List.Forall₂ (Item source) (Lexeme.runs ls) nodes := by
    intro ls nodes
    rw [mapM_eq_ok, ← lexemes_split (Text.byteLength source) ls, List.forall₂_map_left_iff]
    simp only [ofRun_eq_ok]
  constructor
  · intro h
    obtain ⟨ls, hscan, hread⟩ := ofSource_ok h
    refine ⟨ls, hscan, hitems.mp hread, ?_⟩
    simp only [ofSource, hscan, hread] at h
    exact (Except.ok.inj h).symm
  · rintro ⟨ls, hscan, hnodes, htree⟩
    simp only [ofSource, hscan, hitems.mpr hnodes]
    exact congrArg Except.ok htree.symm

theorem parse_eq_ok {source : String} {tree : Node} :
    parse source = .ok tree ↔ ofSource source.toList = .ok tree := by
  rw [parse]
  cases ofSource source.toList with
  | error fault =>
      constructor
      · intro h
        cases h
      · intro h
        cases h
  | ok made =>
      change Except.ok made = Except.ok tree ↔ _
      rw [Except.ok.injEq, Except.ok.injEq]

/-- The node of each run covers it. -/
theorem covers_of_items {ls : List Lexeme} {nodes : List Node}
    (hscan : Lexeme.scan source 0 = .ok ls)
    (h : List.Forall₂ (Item source) (Lexeme.runs ls) nodes) :
    List.Forall₂ (fun run child => Item source run child ∧ child.Covers source run)
      (Lexeme.runs ls) nodes := by
  have hlaid : Lexeme.Laid source ls := Lexeme.laid_of_scan_zero hscan
  have hruns : ∀ run ∈ Lexeme.runs ls, Lexeme.Laid source run :=
    fun run hrun =>
      hlaid.sublist ((List.sublist_flatten_of_mem hrun).trans (flatten_runs_sublist ls))
  refine ((List.forall₂_and_left _ _).mpr ⟨hruns, h⟩).imp ?_
  intro run child hitem
  exact ⟨hitem.2, hitem.2.covers hitem.1⟩

/-- The parser accepts exactly the recipes of the grammar: a text is read if and only if it falls
into lexemes and every run of them is an item. Its tree is then over the whole text and has, in
order, the node of each run, which covers the run. -/
theorem parse_iff_grammar (source : String) :
    ((∃ tree, parse source = .ok tree) ↔
      ∃ ls, Lexeme.scan source.toList 0 = .ok ls ∧
        ∀ run ∈ Lexeme.runs ls, ∃ node, Item source.toList run node) ∧
    ∀ tree, parse source = .ok tree ↔
      ∃ ls, Lexeme.scan source.toList 0 = .ok ls ∧
        List.Forall₂ (fun run child => Item source.toList run child ∧
          child.Covers source.toList run) (Lexeme.runs ls) tree.children ∧
        tree = cover source.toList .recipe 0 (Text.byteLength source.toList) tree.children := by
  constructor
  · constructor
    · rintro ⟨tree, htree⟩
      obtain ⟨ls, hscan, hitems, -⟩ := ofSource_eq_ok.mp (parse_eq_ok.mp htree)
      exact ⟨ls, hscan, exists_forall₂_iff.mp ⟨tree.children, hitems⟩⟩
    · rintro ⟨ls, hscan, hruns⟩
      obtain ⟨nodes, hnodes⟩ := exists_forall₂_iff.mpr hruns
      refine ⟨cover source.toList .recipe 0 (Text.byteLength source.toList) nodes, ?_⟩
      exact parse_eq_ok.mpr (ofSource_eq_ok.mpr ⟨ls, hscan, hnodes, rfl⟩)
  · intro tree
    rw [parse_eq_ok, ofSource_eq_ok]
    constructor
    · rintro ⟨ls, hscan, hitems, htree⟩
      exact ⟨ls, hscan, covers_of_items hscan hitems, htree⟩
    · rintro ⟨ls, hscan, hitems, htree⟩
      exact ⟨ls, hscan, hitems.imp fun _ _ h => h.1, htree⟩

end Node

end RowRecipe
