import RowRecipe.Proofs.SymbolTable.Groups
import RowRecipe.Proofs.Tree.Layout

/-!
The names of groups. A directive is named by one lexeme, which may have a mark in front of it. What
stands between the mark and the lexeme is a part of the name too.
-/

namespace RowRecipe

namespace Lexeme

/-- The lexeme that names a directive, and what stands between it and the mark in front of it. -/
structure Heading where
  gap : List Char
  name : Lexeme

def Heading.text (heading : Heading) : String := String.ofList (heading.gap ++ heading.name.text)

/-- The heading of a run, unless the run is a pragma. -/
def heading? (source : List Char) : List Lexeme → Option Heading
  | [] => none
  | l :: rest =>
      if l.kind = .identifier then some ⟨[], l⟩
      else if l.kind = .bang then
        rest.head?.map fun name => ⟨Text.slice source l.stop name.start, name⟩
      else none

/-- The headings of the directives, in the order of the text. -/
def headings (source : List Char) (ls : List Lexeme) : List Heading :=
  (runs ls).filterMap (heading? source)

/-- Nothing stands between a mark and the lexeme behind it. -/
def Closed (ls : List Lexeme) : Prop :=
  ls.IsChain fun a b => a.kind = .bang → b.start = a.stop

variable {source : List Char} {ls ls' : List Lexeme} {heading : Heading}

theorem heading_gap (h : Aligned source ls) (hheading : heading? source ls = some heading) :
    (∀ c ∈ heading.gap, isSkipped c = true) ∧ (Closed ls → heading.gap = []) := by
  cases ls with
  | nil => cases hheading
  | cons l rest =>
      rw [heading?] at hheading
      by_cases hname : l.kind = .identifier
      · rw [if_pos hname] at hheading
        obtain rfl := Option.some.inj hheading
        exact ⟨List.forall_mem_nil _, fun _ => rfl⟩
      · rw [if_neg hname] at hheading
        by_cases hbang : l.kind = .bang
        · rw [if_pos hbang] at hheading
          cases rest with
          | nil => cases hheading
          | cons next more =>
              obtain rfl := Option.some.inj hheading
              refine ⟨h.gap, fun hclosed => Text.slice_of_le ?_⟩
              exact ((List.isChain_cons_cons.mp hclosed).1 hbang).le
        · rw [if_neg hbang] at hheading
          cases hheading

/-- Behind the marks of a text there are blanks only, and none if the text is closed. -/
theorem headings_gap (h : scan source 0 = .ok ls) : ∀ heading ∈ headings source ls,
    (∀ c ∈ heading.gap, isSkipped c = true) ∧ (Closed ls → heading.gap = []) := by
  intro heading hmem
  obtain ⟨run, hrun, hheading⟩ := List.mem_filterMap.mp hmem
  obtain ⟨haligned, hinside⟩ := aligned_of_mem_runs h run hrun
  obtain ⟨hblank, hnone⟩ := heading_gap haligned hheading
  exact ⟨hblank, fun hclosed => hnone <| List.IsChain.infix hclosed hinside⟩

/-- Recast lexemes are headed by related names. -/
theorem headings_recast {R : Lexeme → Lexeme → Prop} (source source' : List Char)
    (hkind : ∀ l l', R l l' → l.kind = l'.kind) (h : Recast R ls ls') :
    List.Forall₂ (fun heading heading' => R heading.name heading'.name) (headings source ls)
      (headings source' ls') := by
  refine List.rel_filterMap (fun run run' hrun => ?_) (h.runs hkind)
  cases hrun with
  | nil => exact .none
  | @cons l l' rest rest' hl hrest =>
      rw [heading?, heading?, hkind _ _ hl]
      split
      · exact .some hl
      · split
        · have hhead := hrest.head
          generalize rest.head? = next, rest'.head? = next' at hhead ⊢
          cases hhead with
          | none => exact .none
          | some hnext => exact .some hnext
        · exact .none
  | properties hname _ h h' =>
      rw [heading?, heading?, if_pos h.isIdentifier, if_pos h'.isIdentifier]
      exact .some hname

end Lexeme

namespace Grammar

open Node Lexeme

variable {source : List Char} {ls : List Lexeme} {node : Node}

theorem Command.token_heading (h : Command source ls node) (haligned : Aligned source ls)
    (more : List Lexeme) : ∃ heading, heading? source (ls ++ more) = some heading ∧
      ∀ span, token span node = .ok (.directiveName heading.text) := by
  cases h with
  | @name l hkind =>
      have hname := (haligned.spelled l List.mem_cons_self).name hkind
      refine ⟨⟨[], l⟩, if_pos hkind, fun span => ?_⟩
      exact token_command hname rfl String.toList_ofList span
  | @custom bang name hbang hkind =>
      have hmem : name ∈ [bang, name] := List.mem_cons_of_mem _ List.mem_cons_self
      have hmark := (haligned.spelled bang List.mem_cons_self).bang hbang
      have hname := (haligned.spelled name hmem).name hkind
      have hne : bang.kind ≠ .identifier := by
        rw [hbang]
        decide
      refine ⟨⟨Text.slice source bang.stop name.start, name⟩, ?_, fun span => ?_⟩
      · rw [List.cons_append, heading?, if_neg hne, if_pos hbang]
        rfl
      · refine token_customCommand (fun c hc => Text.isBlank_of_isSkipped (haligned.gap c hc)) hname
          rfl ?_ span
        change (String.ofList (Text.slice source bang.start name.stop)).toList = _
        rw [String.toList_ofList, haligned.slice_pair, hmark]
        rfl

/-- A run has a heading if its item is a directive, and the name of the group is the text of it. -/
theorem Item.heading (h : Item source ls node) (haligned : Aligned source ls) :
    Option.Rel (fun heading node => ∀ group, node.group = .ok group →
      group.directiveName? = some heading.text)
      (heading? source ls) (Option.guard (fun n => n.rule == .directive) node) := by
  cases h with
  | loadables hstart =>
      rw [heading?, hstart]
      exact .none
  | version hstart =>
      rw [heading?, hstart]
      exact .none
  | @directive taken more name arguments hname harguments =>
      obtain ⟨heading, hheading, htoken⟩ := hname.token_heading haligned.left more
      rw [hheading]
      refine .some fun group hgroup => ?_
      obtain ⟨tokens, htokens, rfl⟩ := Outcome.map_eq_ok.mp hgroup
      obtain ⟨token, others, hfirst, -, rfl⟩ :=
        List.forall₂_cons_left_iff.mp (Outcome.mapM_eq_ok.mp htokens)
      obtain rfl := Except.ok.inj ((htoken _).symm.trans hfirst)
      rfl

end Grammar

namespace SymbolTable

open Node

/-- The groups of a table are named by the headings of the text. -/
theorem compile_names {source : String} {ls : List Lexeme} {table : SymbolTable}
    (hscan : Lexeme.scan source.toList 0 = .ok ls) (h : compile source = .ok table) :
    table.groups.map TokenGroup.directiveName? =
      (Lexeme.headings source.toList ls).map fun heading => some heading.text := by
  obtain ⟨tree, hparse, hgroups⟩ := exists_tree_of_compile h
  obtain ⟨found, hfound, hitems, -⟩ := ofSource_eq_ok.mp (parse_eq_ok.mp hparse)
  obtain rfl := Except.ok.inj (hscan.symm.trans hfound)
  have haligned : List.Forall₂ (fun run node => Lexeme.Aligned source.toList run ∧
      Grammar.Item source.toList run node) (Lexeme.runs ls) tree.children :=
    (List.forall₂_and_left _ _).mpr
      ⟨fun run hrun => (Lexeme.aligned_of_mem_runs hscan run hrun).1, hitems⟩
  have hheadings := List.rel_filterMap (fun run node h => h.2.heading h.1) haligned
  rw [List.filterMap_eq_filter] at hheadings
  change List.Forall₂ _ _ (tree.childrenBy .directive) at hheadings
  have hnames := Outcome.forall₂_comp hheadings (Outcome.mapM_eq_ok.mp hgroups)
  refine Outcome.map_eq_map_of_forall₂ (hnames.flip.imp fun group heading h => ?_)
  obtain ⟨node, hnode, hgroup⟩ := h
  exact hnode group hgroup

end SymbolTable

end RowRecipe
