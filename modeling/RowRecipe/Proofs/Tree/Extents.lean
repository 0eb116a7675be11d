import RowRecipe.Proofs.Lexeme.Order
import RowRecipe.Proofs.Tree.Framing
import RowRecipe.Proofs.Tree.Reading

/-!
Where the nodes of the grammar stand. The node of a sentence is made from some of its lexemes or from
the nodes of its parts, and yet it always covers the whole sentence: it starts where the first lexeme
starts, ends where the last one ends, and its text is the text between.
-/

namespace RowRecipe

namespace Node

/-- The node stands over the lexemes, from the first one to the last one. -/
structure Covers (source : List Char) (ls : List Lexeme) (node : Node) : Prop where
  start : ∃ first ∈ ls.head?, node.start = Position.ofOffset source first.start
  stop : ∃ last ∈ ls.getLast?, node.endOffset = last.stop
  text : ∃ before after, source = before ++ node.text.toList ++ after ∧
    node.start.offset = Text.byteLength before
  lastCharacter : ∃ init c, node.text.toList = init ++ [c] ∧
    node.stop = Position.ofOffset source (node.start.offset + Text.byteLength init)

variable {source : List Char} {ls : List Lexeme}

theorem lastPlace_of_ne_nil (source : List Char) {text : List Char} (hne : text ≠ []) (start : Nat) :
    ∃ init c, text = init ++ [c] ∧
      lastPlace source text start (start + Text.byteLength text) =
        Position.ofOffset source (start + Text.byteLength init) := by
  obtain ⟨init, c, rfl⟩ := (List.eq_nil_or_concat text).resolve_left hne
  rw [List.concat_eq_append] at *
  refine ⟨init, c, rfl, ?_⟩
  have hlength : start + Text.byteLength (init ++ [c]) - c.utf8Size =
      start + Text.byteLength init := by
    rw [Text.byteLength_append]
    simp only [Text.byteLength]
    omega
  simp only [lastPlace, List.getLast?_concat, hlength]

theorem leaf_covers {l : Lexeme} (h : l.LiesIn source) (rule : Rule) :
    (leaf source rule l).Covers source [l] := by
  obtain ⟨first, last, hsource, hstart⟩ := h.place
  obtain ⟨init, c, htext, hplace⟩ := lastPlace_of_ne_nil source h.nonempty l.start
  have hcontent : (leaf source rule l).text.toList = l.text := by
    simp [leaf, Lexeme.content]
  refine ⟨⟨l, rfl, rfl⟩, ⟨l, rfl, Grammar.endOffset_leaf rule l⟩, ⟨first, last, ?_, hstart⟩,
    ⟨init, c, by rw [hcontent, htext], hplace⟩⟩
  rw [hcontent, hsource]

/-- A node made from the start of the first lexeme and the end of the last one. -/
theorem cover_covers (h : Lexeme.Laid source ls) {first last : Lexeme} (hfirst : first ∈ ls.head?)
    (hlast : last ∈ ls.getLast?) (rule : Rule) (children : List Node) :
    (cover source rule first.start last.stop children).Covers source ls := by
  have hmem : first ∈ ls := List.mem_of_head? hfirst
  have hcut := (h.lie first hmem).start_isCut
  have hlastLies := h.lie last (List.mem_of_getLast? hlast)
  have hlt := h.start_lt_stop hfirst hlast
  obtain ⟨hsource, hlength⟩ := Text.slice_between hcut hlastLies.stop_isCut (Nat.le_of_lt hlt)
  have htext : (cover source rule first.start last.stop children).text.toList =
      Text.slice source first.start last.stop := String.toList_ofList
  have hne : Text.slice source first.start last.stop ≠ [] := by
    intro hnil
    rw [hnil] at hlength
    simp only [Text.byteLength] at hlength
    omega
  have hstop : first.start + Text.byteLength (Text.slice source first.start last.stop) =
      last.stop := by
    rw [hlength]
    omega
  obtain ⟨init, c, hinit, hplace⟩ := lastPlace_of_ne_nil source hne first.start
  rw [hstop] at hplace
  have hbefore : first.start = Text.byteLength (Text.takeBytes first.start source) := by
    obtain ⟨before, after, rfl, hbefore⟩ := hcut
    rw [hbefore, Text.takeBytes_byteLength_append]
  refine ⟨⟨first, hfirst, rfl⟩, ⟨last, hlast, ?_⟩, ⟨Text.takeBytes first.start source,
    Text.dropBytes last.stop source, ?_, hbefore⟩, ⟨init, c, by rw [htext, hinit], hplace⟩⟩
  · rw [endOffset, htext]
    exact hstop
  · rw [htext]
    exact hsource

/-- The nodes stand over the lexemes together: the first one starts where the first lexeme does, and
the last one ends where the last lexeme does. -/
structure CoverTogether (ls : List Lexeme) (nodes : List Node) : Prop where
  start : ∃ first ∈ ls.head?, ∃ node ∈ nodes.head?, node.start.offset = first.start
  stop : ∃ last ∈ ls.getLast?, ∃ node ∈ nodes.getLast?, node.endOffset = last.stop

namespace CoverTogether

theorem one {node : Node} (h : node.Covers source ls) : CoverTogether ls [node] := by
  obtain ⟨first, hfirst, hstart⟩ := h.start
  obtain ⟨last, hlast, hstop⟩ := h.stop
  exact ⟨⟨first, hfirst, node, rfl, by rw [hstart]; rfl⟩, ⟨last, hlast, node, rfl, hstop⟩⟩

theorem append (between : List Lexeme) {more : List Lexeme} {nodes others : List Node}
    (h : CoverTogether ls nodes) (hmore : CoverTogether more others) :
    CoverTogether (ls ++ (between ++ more)) (nodes ++ others) := by
  obtain ⟨first, hfirst, node, hnode, hstart⟩ := h.start
  obtain ⟨last, hlast, node', hnode', hstop⟩ := hmore.stop
  refine ⟨⟨first, ?_, node, ?_, hstart⟩, ⟨last, ?_, node', ?_, hstop⟩⟩
  · exact List.mem_head?_append_of_mem_head? hfirst
  · exact List.mem_head?_append_of_mem_head? hnode
  · exact List.mem_getLast?_append_of_mem_getLast? (List.mem_getLast?_append_of_mem_getLast? hlast)
  · exact List.mem_getLast?_append_of_mem_getLast? hnode'

end CoverTogether

theorem coverNodes_covers (h : Lexeme.Laid source ls) {nodes : List Node}
    (hnodes : CoverTogether ls nodes) (rule : Rule) :
    (coverNodes source rule nodes).Covers source ls := by
  obtain ⟨first, hfirst, node, hnode, hstart⟩ := hnodes.start
  obtain ⟨last, hlast, node', hnode', hstop⟩ := hnodes.stop
  have hcover : coverNodes source rule nodes = cover source rule first.start last.stop nodes := by
    rw [coverNodes, Option.mem_def.mp hnode, Option.mem_def.mp hnode', Option.map_some,
      Option.map_some, Option.getD_some, Option.getD_some, hstart, hstop]
  rw [hcover]
  exact cover_covers h hfirst hlast rule nodes

end Node

namespace Grammar

open Node

variable {source : List Char} {ls : List Lexeme} {node : Node}

theorem Single.covers {kind : Lexeme.Kind} {rule : Rule} (h : Single source kind rule ls node)
    (hlaid : Lexeme.Laid source ls) : node.Covers source ls := by
  obtain ⟨l, rfl, -, rfl⟩ := h
  exact leaf_covers (hlaid.lie l List.mem_cons_self) rule

theorem Range.covers (h : Range source ls node) (hlaid : Lexeme.Laid source ls) :
    node.Covers source ls := by
  cases h with
  | @intro low colon high equals label rule =>
      refine coverNodes_covers hlaid ⟨⟨low, rfl, _, rfl, rfl⟩, ⟨label, rfl, _, rfl, ?_⟩⟩ .range
      exact endOffset_leaf rule label

theorem Property.covers (h : Property source ls node) (hlaid : Lexeme.Laid source ls) :
    node.Covers source ls := by
  cases h with
  | @intro key equals value keyRule valueRule =>
      refine coverNodes_covers hlaid ⟨⟨key, rfl, _, rfl, rfl⟩, ⟨value, rfl, _, rfl, ?_⟩⟩ .property
      exact endOffset_leaf valueRule value

theorem Separated.coverTogether {separator : List Lexeme → Prop} {phrase : Phrase} {nodes : List Node}
    (h : Separated separator phrase ls nodes)
    (hphrase : ∀ {ls node}, phrase ls node → Lexeme.Laid source ls → node.Covers source ls)
    (hlaid : Lexeme.Laid source ls) : CoverTogether ls nodes := by
  induction h with
  | one hfirst => exact .one (hphrase hfirst hlaid)
  | cons hfirst _ _ ih =>
      exact .append _ (.one (hphrase hfirst hlaid.left)) (ih hlaid.right.right)

theorem Argument.covers (h : Argument source ls node) (hlaid : Lexeme.Laid source ls) :
    node.Covers source ls := by
  cases h with
  | @list kind itemRule listRule _ nodes _ hitems =>
      cases hitems with
      | one hfirst => exact hfirst.covers hlaid
      | cons hfirst hbetween hmore =>
          have htogether := (Separated.cons hfirst hbetween hmore).coverTogether Single.covers hlaid
          cases hmore with
          | one _ => exact coverNodes_covers hlaid htogether listRule
          | cons _ _ _ => exact coverNodes_covers hlaid htogether listRule
  | ranges hranges =>
      exact coverNodes_covers hlaid (hranges.coverTogether Range.covers hlaid) .rangeList
  | quantity => exact leaf_covers (hlaid.lie _ List.mem_cons_self) _
  | block => exact leaf_covers (hlaid.lie _ List.mem_cons_self) _
  | name => exact leaf_covers (hlaid.lie _ List.mem_cons_self) _
  | expression => exact cover_covers hlaid rfl rfl _ _
  | properties => exact cover_covers hlaid rfl rfl _ _

theorem Command.covers (h : Command source ls node) (hlaid : Lexeme.Laid source ls) :
    node.Covers source ls := by
  cases h with
  | name => exact leaf_covers (hlaid.lie _ List.mem_cons_self) _
  | custom => exact cover_covers hlaid rfl rfl _ _

theorem Arguments.coverTogether {nodes : List Node} (h : Arguments source ls nodes)
    (hlaid : Lexeme.Laid source ls) (hne : nodes ≠ []) : CoverTogether ls nodes := by
  induction h with
  | nil => exact absurd rfl hne
  | @cons ls more node nodes hfirst hmore ih =>
      have hcovers := CoverTogether.one (hfirst.covers hlaid.left)
      cases hmore with
      | nil =>
          rw [List.append_nil]
          exact hcovers
      | cons => exact .append [] hcovers (ih hlaid.right (List.cons_ne_nil _ _))

/-- Every item of a recipe covers its run. -/
theorem Item.covers (h : Item source ls node) (hlaid : Lexeme.Laid source ls) :
    node.Covers source ls := by
  cases h with
  | @loadables start word names nodes _ _ _ hnames =>
      obtain ⟨first, taken, more, rfl, -⟩ := items_complete ⟨0, none⟩ hnames stops_nil
      refine cover_covers hlaid rfl ?_ _ _
      rw [List.getLast?_cons_cons, List.getLast?_cons_cons, List.getLast?_cons]
      rfl
  | version => exact cover_covers hlaid rfl rfl _ _
  | @directive ls more name arguments hname harguments =>
      refine coverNodes_covers hlaid ?_ .directive
      have hcovers := CoverTogether.one (hname.covers hlaid.left)
      cases harguments with
      | nil =>
          rw [List.append_nil]
          exact hcovers
      | cons hfirst hmore =>
          exact .append [] hcovers
            ((Arguments.cons hfirst hmore).coverTogether hlaid.right (List.cons_ne_nil _ _))

end Grammar

end RowRecipe
