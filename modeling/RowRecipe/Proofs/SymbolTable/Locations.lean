import RowRecipe.Proofs.SymbolTable.Groups
import RowRecipe.Proofs.Tree.Locations

/-!
The spans of a table. A span counts by lines and columns only, and yet it is enough to find the text of
its directive in the source, and to see that the directives stand one after the other.
-/

namespace RowRecipe

namespace Span

/-- From its start up to its end, the source has the text of the span, which is some text. -/
structure CutsOut (source : List Char) (s : Span) : Prop where
  text : Text.between source s.startLine s.startColumn s.endLine s.endColumn = s.source.toList
  nonempty : s.startLine < s.endLine ∨ s.startLine = s.endLine ∧ s.startColumn < s.endColumn

/-- The first span ends where the second one starts, or in front of that. -/
def Precedes (a b : Span) : Prop :=
  a.endLine < b.startLine ∨ a.endLine = b.startLine ∧ a.endColumn ≤ b.startColumn

end Span

namespace Node

variable {source : List Char} {node : Node}

/-- Behind a node that does not end with a newline, the place is one column further than its last
character. -/
theorem Stands.behind (h : Stands source node) (hlast : node.text.toList.getLast? ≠ some '\n') :
    ∃ before after, source = before ++ node.text.toList ++ after ∧ node.text.toList ≠ [] ∧
      node.start.EndOf before ∧
      Position.EndOf (before ++ node.text.toList)
        ⟨node.endOffset, node.stop.line, node.stop.column + 1⟩ := by
  obtain ⟨before, init, last, after, hsource, htext, hstart, hstop⟩ := h
  have hinline : '\n' ∉ [last] := by
    rw [List.mem_singleton]
    rintro rfl
    rw [htext, List.getLast?_concat] at hlast
    exact hlast rfl
  have hbehind := hstop.along hinline
  have hend : node.stop.offset + Text.byteLength [last] = node.endOffset := by
    rw [endOffset, htext, hstop.offset, hstart.offset, Text.byteLength_append,
      Text.byteLength_append, Nat.add_assoc]
  rw [hend, List.append_assoc, ← htext] at hbehind
  rw [← htext] at hsource
  refine ⟨before, after, hsource, ?_, hstart, hbehind⟩
  rw [htext]
  exact List.concat_ne_nil last init

theorem Stands.cutsOut (h : Stands source node) (hlast : node.text.toList.getLast? ≠ some '\n') :
    node.span.CutsOut source := by
  obtain ⟨before, after, hsource, hne, hstart, hbehind⟩ := h.behind hlast
  constructor
  · rw [hsource]
    exact hstart.between hbehind after
  · have hlength := List.length_pos_iff.mpr hne
    rcases hstart.before_or_left hbehind with hbefore | ⟨hline, hcolumn⟩
    · exact .inl hbefore
    · refine .inr ⟨hline, ?_⟩
      change node.start.column < node.stop.column + 1
      change node.stop.column + 1 = _ at hcolumn
      omega

theorem Stands.precedes {other : Node} (h : Stands source node) (hother : Stands source other)
    (hlast : node.text.toList.getLast? ≠ some '\n') (hle : node.endOffset ≤ other.start.offset) :
    node.span.Precedes other.span := by
  obtain ⟨before, after, hsource, -, -, hbehind⟩ := h.behind hlast
  obtain ⟨front, init, last, rest, hfront, -, hstart, -⟩ := hother
  rw [hsource, List.append_assoc front] at hfront
  have hbytes : Text.byteLength (before ++ node.text.toList) ≤ Text.byteLength front := by
    rw [← hstart.offset]
    exact (hbehind.offset.symm.le).trans hle
  obtain ⟨middle, rfl⟩ := Text.exists_append_of_le hfront hbytes
  rcases hbehind.before_or_left hstart with hbefore | ⟨hline, hcolumn⟩
  · exact .inl hbefore
  · refine .inr ⟨hline, ?_⟩
    change node.stop.column + 1 ≤ other.start.column
    change other.start.column = node.stop.column + 1 + _ at hcolumn
    omega

end Node

namespace SymbolTable

open Node

/-- The groups have the spans of the directives, which are taken in order. -/
theorem spans_of_parse {source : String} {tree : Node} {table : SymbolTable}
    (htree : parse source = .ok tree) (htable : compile source = .ok table) :
    table.groups.map TokenGroup.span = (tree.childrenBy .directive).map Node.span := by
  rw [compile_of_parse htree] at htable
  obtain ⟨groups, hgroups, rfl⟩ := Outcome.map_eq_ok.mp htable
  have hspan : ∀ node made, group node = .ok made → node.span = made.span := by
    intro node made h
    obtain ⟨tokens, -, rfl⟩ := Outcome.map_eq_ok.mp h
    rfl
  have hspans : List.Forall₂ Eq ((tree.childrenBy .directive).map Node.span)
      (groups.map TokenGroup.span) :=
    List.forall₂_map_left_iff.mpr
      (List.forall₂_map_right_iff.mpr ((Outcome.mapM_eq_ok.mp hgroups).imp hspan))
  rw [List.forall₂_eq_eq_eq] at hspans
  exact hspans.symm

/-- Places are faithful. The tree of a text that parses is over the whole text; each node of it is the
part of the text that its two places cut out, and the children of a node stand inside of it, one after
the other. The spans of the groups cut the directives out of the text, by lines and columns alone, and
follow one another. -/
theorem locations_faithful {source : String} {tree : Node} (h : parse source = .ok tree) :
    (tree.text = source ∧ tree.start.EndOf [] ∧ (source ≠ "" → Located source.toList tree) ∧
      (source = "" → tree.stop = tree.start ∧ tree.children = [])) ∧
    ∀ table, compile source = .ok table →
      (∀ group ∈ table.groups, group.span.CutsOut source.toList) ∧
      table.groups.Pairwise fun a b => a.span.Precedes b.span := by
  refine ⟨parse_located h, fun table htable => ?_⟩
  obtain ⟨hchildren, hordered⟩ := parse_children h
  have hspans := spans_of_parse h htable
  have hdirectives : ∀ n ∈ tree.childrenBy .directive, n ∈ tree.children :=
    fun n hn => List.mem_of_mem_filter hn
  constructor
  · intro group hgroup
    have hmem := List.mem_map_of_mem (f := TokenGroup.span) hgroup
    rw [hspans] at hmem
    obtain ⟨node, hnode, hspan⟩ := List.mem_map.mp hmem
    obtain ⟨hstands, hlast⟩ := hchildren node (hdirectives node hnode)
    rw [← hspan]
    exact hstands.cutsOut hlast
  · have hprecede : (tree.childrenBy .directive).Pairwise fun a b => a.span.Precedes b.span := by
      refine (hordered.sublist List.filter_sublist).imp_of_mem fun ha hb hle => ?_
      obtain ⟨hstands, hlast⟩ := hchildren _ (hdirectives _ ha)
      exact hstands.precedes (hchildren _ (hdirectives _ hb)).1 hlast hle
    rw [← List.pairwise_map, hspans, List.pairwise_map]
    exact hprecede

/-- A text over two lines in one directive, and another directive on the line where that one ends. -/
theorem locations_faithful_twoLines :
    let source := "set 'é\nü' up; keep :b"
    let first : TokenGroup := ⟨[.directiveName "set", .text "é\nü", .identifier "up"],
      ⟨1, 0, 2, 5, "set 'é\nü' up"⟩⟩
    let second : TokenGroup := ⟨[.directiveName "keep", .columnName "b"], ⟨2, 7, 2, 14, "keep :b"⟩⟩
    (∃ tree, parse source = .ok tree ∧ Located source.toList tree) ∧
      compile source = .ok ⟨[first, second], [], none⟩ ∧
      first.span.CutsOut source.toList ∧ first.span.Precedes second.span := by
  intro source first second
  have htable : compile source = .ok ⟨[first, second], [], none⟩ := by
    cbv
  cases htree : parse source with
  | error e =>
      rw [compile_eq_error_of_parse htree] at htable
      cases htable
  | ok tree =>
      obtain ⟨⟨-, -, hlocated, -⟩, hspans⟩ := locations_faithful htree
      obtain ⟨hcut, hordered⟩ := hspans _ htable
      exact ⟨⟨tree, rfl, hlocated (by decide)⟩, htable, hcut first List.mem_cons_self,
        List.rel_of_pairwise_cons hordered List.mem_cons_self⟩

end SymbolTable

end RowRecipe
