import RowRecipe.Proofs.Lexeme.Endings
import RowRecipe.Proofs.Source.Places
import RowRecipe.Proofs.Tree.Acceptance
import RowRecipe.Proofs.Tree.Runs

/-!
Where the nodes of a tree stand. A node is a part of the source that its two places cut out, and its
children are parts of it, one after the other. What makes this so is that the lexemes of a source
stand one after the other, and that the nodes of a phrase stand over lexemes of that phrase only.
-/

namespace RowRecipe

namespace Node

/-- The text of the node is a part of the source. Its first place is the one in front of that part, its
last place the one in front of the last character of it. -/
def Stands (source : List Char) (node : Node) : Prop :=
  ∃ before init last after, source = before ++ (init ++ [last]) ++ after ∧
    node.text.toList = init ++ [last] ∧ node.start.EndOf before ∧ node.stop.EndOf (before ++ init)

/-- The node and everything below it stand in the source: the children of a node inside of it, each
behind the ones in front of it. -/
inductive Located (source : List Char) : Node → Prop
  | intro {node : Node} (hstands : Stands source node)
      (hinside : ∀ child ∈ node.children, node.start.offset ≤ child.start.offset ∧
        child.endOffset ≤ node.endOffset)
      (hordered : node.children.Pairwise fun a b => a.endOffset ≤ b.start.offset)
      (hchildren : ∀ child ∈ node.children, Located source child) : Located source node

variable {source : List Char} {ls more : List Lexeme} {node : Node}

theorem Located.stands (h : Located source node) : Stands source node := by
  cases h with
  | intro hstands => exact hstands

theorem Covers.stands (h : node.Covers source ls) : Stands source node := by
  obtain ⟨before, after, hsource, hoffset⟩ := h.text
  obtain ⟨init, last, htext, hstop⟩ := h.lastCharacter
  rw [htext] at hsource
  refine ⟨before, init, last, after, hsource, htext, ?_, ?_⟩
  · obtain ⟨first, -, hstart⟩ := h.start
    have hfirst : first.start = Text.byteLength before := by
      rw [← hoffset, hstart]
      rfl
    rw [hstart, hfirst, hsource, List.append_assoc]
    exact Position.ofOffset_endOf before _
  · have hparts : source = (before ++ init) ++ ([last] ++ after) := by
      rw [hsource]
      simp only [List.append_assoc]
    rw [hstop, hoffset, ← Text.byteLength_append, hparts]
    exact Position.ofOffset_endOf (before ++ init) _

/-- A node over lexemes ends with the last character of the last one. -/
theorem Covers.getLast?_text (h : node.Covers source ls) {last : Lexeme} (hlast : last ∈ ls.getLast?)
    (hlies : last.LiesIn source) : node.text.toList.getLast? = last.text.getLast? := by
  obtain ⟨before, after, hsource, hoffset⟩ := h.text
  obtain ⟨init, c, htext, -⟩ := h.lastCharacter
  obtain ⟨first, rest, hplace, hstart⟩ := hlies.place
  obtain ⟨last', hlast', hstop⟩ := h.stop
  obtain rfl := Option.some.inj ((Option.mem_def.mp hlast').symm.trans hlast)
  have hlength : Text.byteLength (before ++ node.text.toList) =
      Text.byteLength (first ++ last'.text) := by
    rw [Text.byteLength_append, Text.byteLength_append, ← hoffset, ← hstart]
    exact hstop
  have hsame : before ++ node.text.toList = first ++ last'.text := by
    have htake := Text.takeBytes_byteLength_append (before ++ node.text.toList) after
    rw [← hsource, hlength, hplace, Text.takeBytes_byteLength_append] at htake
    exact htake.symm
  have hne : node.text.toList ≠ [] := by
    rw [htext]
    exact List.concat_ne_nil _ _
  rw [← List.getLast?_append_of_ne_nil before hne, hsame,
    List.getLast?_append_of_ne_nil first hlies.nonempty]

/-- The nodes stand in the source one after the other, and none of them goes over the ends of the
lexemes. -/
structure Spread (source : List Char) (ls : List Lexeme) (nodes : List Node) : Prop where
  located : ∀ n ∈ nodes, Located source n
  starts : ∀ n ∈ nodes, ∃ l ∈ ls, l.start ≤ n.start.offset
  stops : ∀ n ∈ nodes, ∃ l ∈ ls, n.endOffset ≤ l.stop
  ordered : nodes.Pairwise fun a b => a.endOffset ≤ b.start.offset

namespace Spread

variable {nodes others : List Node}

theorem nil (source : List Char) (ls : List Lexeme) : Spread source ls [] :=
  ⟨List.forall_mem_nil _, List.forall_mem_nil _, List.forall_mem_nil _, .nil⟩

theorem mono (h : Spread source ls nodes) (hsub : ls ⊆ more) : Spread source more nodes := by
  refine ⟨h.located, fun n hn => ?_, fun n hn => ?_, h.ordered⟩
  · obtain ⟨l, hl, hstart⟩ := h.starts n hn
    exact ⟨l, hsub hl, hstart⟩
  · obtain ⟨l, hl, hstop⟩ := h.stops n hn
    exact ⟨l, hsub hl, hstop⟩

theorem append (hlaid : Lexeme.Laid source (ls ++ more)) (h : Spread source ls nodes)
    (hmore : Spread source more others) : Spread source (ls ++ more) (nodes ++ others) := by
  have hleft := h.mono (List.subset_append_left ls more)
  have hright := hmore.mono (List.subset_append_right ls more)
  refine ⟨List.forall_mem_append.mpr ⟨hleft.located, hright.located⟩,
    List.forall_mem_append.mpr ⟨hleft.starts, hright.starts⟩,
    List.forall_mem_append.mpr ⟨hleft.stops, hright.stops⟩,
    List.pairwise_append.mpr ⟨h.ordered, hmore.ordered, fun a ha b hb => ?_⟩⟩
  obtain ⟨l, hl, hstop⟩ := h.stops a ha
  obtain ⟨l', hl', hstart⟩ := hmore.starts b hb
  have hle := hlaid.stop_le_start hl hl'
  omega

/-- What stands over lexemes inside of a block stands over the block. -/
theorem of_inner {inner : List Lexeme} {block : Lexeme} (h : Spread source inner nodes)
    (hinner : ∀ l ∈ inner, block.start ≤ l.start ∧ l.stop ≤ block.stop) :
    Spread source [block] nodes := by
  refine ⟨h.located, fun n hn => ?_, fun n hn => ?_, h.ordered⟩
  · obtain ⟨l, hl, hstart⟩ := h.starts n hn
    exact ⟨block, List.mem_singleton_self block, (hinner l hl).1.trans hstart⟩
  · obtain ⟨l, hl, hstop⟩ := h.stops n hn
    exact ⟨block, List.mem_singleton_self block, hstop.trans (hinner l hl).2⟩

end Spread

/-- A node over lexemes is located if its children are spread over some of them. -/
theorem Covers.located (h : node.Covers source ls) (hlaid : Lexeme.Laid source ls)
    (hchildren : Spread source ls node.children) : Located source node := by
  refine .intro h.stands (fun child hchild => ⟨?_, ?_⟩) hchildren.ordered hchildren.located
  · obtain ⟨first, hfirst, hstart⟩ := h.start
    obtain ⟨l, hl, hle⟩ := hchildren.starts child hchild
    have hoffset : node.start.offset = first.start := by
      rw [hstart]
      rfl
    rw [hoffset]
    exact (hlaid.first_le hfirst hl).trans hle
  · obtain ⟨last, hlast, hstop⟩ := h.stop
    obtain ⟨l, hl, hle⟩ := hchildren.stops child hchild
    rw [hstop]
    exact hle.trans (hlaid.le_last hlast hl)

theorem Covers.spread (h : node.Covers source ls) (hlaid : Lexeme.Laid source ls)
    (hchildren : Spread source ls node.children) : Spread source ls [node] := by
  obtain ⟨first, hfirst, hstart⟩ := h.start
  obtain ⟨last, hlast, hstop⟩ := h.stop
  refine ⟨List.forall_mem_singleton.mpr (h.located hlaid hchildren),
    List.forall_mem_singleton.mpr ⟨first, List.mem_of_head? hfirst, ?_⟩,
    List.forall_mem_singleton.mpr ⟨last, List.mem_of_getLast? hlast, hstop.le⟩,
    List.pairwise_singleton _ _⟩
  rw [hstart]
  exact Nat.le_refl _

end Node

namespace Grammar

open Node

variable {source : List Char} {ls : List Lexeme} {node : Node} {nodes : List Node}

theorem leaf_spread {l : Lexeme} (h : l.LiesIn source) (rule : Rule) :
    Spread source [l] [leaf source rule l] :=
  (leaf_covers h rule).spread ⟨List.forall_mem_singleton.mpr h, List.pairwise_singleton _ _⟩
    (.nil source [l])

/-- The leaves of lexemes that stand one after the other do so too. -/
theorem leaves_spread (pairs : List (Lexeme × Rule))
    (hlaid : Lexeme.Laid source (pairs.map Prod.fst)) :
    Spread source (pairs.map Prod.fst) (pairs.map fun p => leaf source p.2 p.1) := by
  induction pairs with
  | nil => exact .nil source []
  | cons p pairs ih =>
      rw [List.map_cons, ← List.singleton_append] at hlaid
      have hleaf := leaf_spread (hlaid.lie p.1 List.mem_cons_self) p.2
      exact hleaf.append hlaid (ih hlaid.right)

theorem Separated.spread {separator : List Lexeme → Prop} {phrase : Phrase}
    (h : Separated separator phrase ls nodes)
    (hphrase : ∀ {ls node}, phrase ls node → Lexeme.Laid source ls → Spread source ls [node])
    (hlaid : Lexeme.Laid source ls) : Spread source ls nodes := by
  induction h with
  | one hfirst => exact hphrase hfirst hlaid
  | @cons ls between more _ _ hfirst _ _ ih =>
      have hmore := (ih hlaid.right.right).mono (List.subset_append_right between more)
      exact (hphrase hfirst hlaid.left).append hlaid hmore

theorem Single.spread {kind : Lexeme.Kind} {rule : Rule} (h : Single source kind rule ls node)
    (hlaid : Lexeme.Laid source ls) : Spread source ls [node] := by
  obtain ⟨l, rfl, -, rfl⟩ := h
  exact leaf_spread (hlaid.lie l List.mem_cons_self) rule

theorem Range.spread (h : Range source ls node) (hlaid : Lexeme.Laid source ls) :
    Spread source ls [node] := by
  refine h.covers hlaid |>.spread hlaid ?_
  cases h with
  | @intro low colon high equals label rule =>
      have hsub : [low, high, label].Sublist [low, colon, high, equals, label] :=
        .cons_cons _ (.cons _ (.cons_cons _ (.cons _ (.refl _))))
      exact (leaves_spread [(low, .number), (high, .number), (label, rule)]
        (hlaid.sublist hsub)).mono hsub.subset

theorem Property.spread (h : Property source ls node) (hlaid : Lexeme.Laid source ls) :
    Spread source ls [node] := by
  refine h.covers hlaid |>.spread hlaid ?_
  cases h with
  | @intro key equals value keyRule valueRule =>
      have hsub : [key, value].Sublist [key, equals, value] := .cons_cons _ (.cons _ (.refl _))
      exact (leaves_spread [(key, keyRule), (value, valueRule)]
        (hlaid.sublist hsub)).mono hsub.subset

theorem Properties.spread (h : Properties source ls nodes) (hlaid : Lexeme.Laid source ls) :
    Spread source ls nodes := by
  cases h with
  | none => exact .nil source ls
  | some _ hentries _ =>
      have hinner := hentries.spread Property.spread hlaid.right.left
      exact hinner.mono (List.subset_append_of_subset_right _ (List.subset_append_left _ _))

theorem Argument.spread (h : Argument source ls node) (hlaid : Lexeme.Laid source ls) :
    Spread source ls [node] := by
  refine h.covers hlaid |>.spread hlaid ?_
  cases h with
  | @list kind itemRule listRule _ nodes _ hitems =>
      have hspread := hitems.spread Single.spread hlaid
      cases hitems with
      | one hfirst =>
          obtain ⟨l, rfl, -, rfl⟩ := hfirst
          exact .nil source [l]
      | cons _ _ hmore => cases hmore <;> exact hspread
  | ranges hranges => exact hranges.spread Range.spread hlaid
  | quantity => exact .nil source _
  | block => exact .nil source _
  | name => exact .nil source _
  | expression => exact .nil source _
  | @properties name colon block inner nodes _ _ _ hblock hinner hentries =>
      have hmem : block ∈ [name, colon, block] := by simp
      obtain ⟨hlaidInner, hbounds⟩ := Lexeme.laid_inner (hlaid.lie block hmem) hblock hinner
      exact ((hentries.spread hlaidInner).of_inner hbounds).mono
        (List.cons_subset.mpr ⟨hmem, List.nil_subset _⟩)

theorem Arguments.spread (h : Arguments source ls nodes) (hlaid : Lexeme.Laid source ls) :
    Spread source ls nodes := by
  induction h with
  | nil => exact .nil source []
  | cons hfirst _ ih => exact (hfirst.spread hlaid.left).append hlaid (ih hlaid.right)

theorem Command.spread (h : Command source ls node) (hlaid : Lexeme.Laid source ls) :
    Spread source ls [node] := by
  refine h.covers hlaid |>.spread hlaid ?_
  cases h with
  | name => exact .nil source _
  | custom => exact .nil source _

theorem Item.spread (h : Item source ls node) (hlaid : Lexeme.Laid source ls) :
    Spread source ls [node] := by
  refine h.covers hlaid |>.spread hlaid ?_
  cases h with
  | @loadables start word names nodes _ _ _ hnames =>
      have hlaidNames : Lexeme.Laid source names :=
        hlaid.sublist (List.sublist_append_right [start, word] names)
      exact (hnames.spread Single.spread hlaidNames).mono
        (List.subset_append_right [start, word] names)
  | @version start word value rule =>
      exact (leaf_spread (hlaid.lie value (by simp)) rule).mono (by simp)
  | directive hname harguments =>
      exact (hname.spread hlaid.left).append hlaid (harguments.spread hlaid.right)

/-- The items of a recipe stand one after the other. -/
theorem items_spread {runs : List (List Lexeme)} (h : List.Forall₂ (Item source) runs nodes)
    (hlaid : Lexeme.Laid source runs.flatten) : Spread source runs.flatten nodes := by
  induction h with
  | nil => exact .nil source []
  | cons hitem _ ih =>
      rw [List.flatten_cons] at hlaid ⊢
      exact (hitem.spread hlaid.left).append hlaid (ih hlaid.right)

/-- No item ends with a newline. -/
theorem Item.getLast?_text (h : Item source ls node) (hlaid : Lexeme.Laid source ls)
    (hends : ∀ l ∈ ls, l.kind ≠ .newline → l.text.getLast? ≠ some '\n') :
    node.text.toList.getLast? ≠ some '\n' := by
  have hcovers := h.covers hlaid
  obtain ⟨last, hlast, -⟩ := hcovers.stop
  have hmem := List.mem_of_getLast? hlast
  rw [hcovers.getLast?_text hlast (hlaid.lie last hmem)]
  apply hends last hmem
  intro hkind
  have hinner := h.inner last hmem
  rw [hkind] at hinner
  cases hinner

end Grammar

/-- The runs of a text are laid out in it. -/
theorem Lexeme.laid_runs {source : List Char} {ls : List Lexeme} (h : Lexeme.scan source 0 = .ok ls) :
    Lexeme.Laid source (Lexeme.runs ls).flatten :=
  (Lexeme.laid_of_scan_zero h).sublist (Grammar.flatten_runs_sublist ls)

namespace Node

/-- The tree of a text is over the whole text. It and everything below it stand in the text; only the
tree of the empty text has no last character, and starts and stops at one place. -/
theorem parse_located {source : String} {tree : Node} (h : parse source = .ok tree) :
    tree.text = source ∧ tree.start.EndOf [] ∧
      (source ≠ "" → Located source.toList tree) ∧
      (source = "" → tree.stop = tree.start ∧ tree.children = []) := by
  obtain ⟨ls, hscan, hitems, htree⟩ := ofSource_eq_ok.mp (parse_eq_ok.mp h)
  have hslice : Text.slice source.toList 0 (Text.byteLength source.toList) = source.toList := by
    have htake := Text.takeBytes_byteLength_append source.toList []
    rw [List.append_nil] at htake
    rw [Text.slice, Text.dropBytes_zero, Nat.sub_zero, htake]
  have htext : tree.text = source := by
    rw [htree, cover, hslice, String.ofList_toList]
  have hstart : tree.start = Position.ofOffset ([] ++ source.toList) (Text.byteLength []) := by
    rw [htree]
    rfl
  have hplace : tree.start.EndOf [] := by
    rw [hstart]
    exact Position.ofOffset_endOf [] source.toList
  refine ⟨htext, hplace, fun hne => ?_, fun hempty => ?_⟩
  · have hlaid := Lexeme.laid_runs hscan
    have hspread := Grammar.items_spread hitems hlaid
    have hchars : source.toList ≠ [] := by
      intro hnil
      exact hne (String.toList_eq_nil_iff.mp hnil)
    obtain ⟨init, last, hinit, hlast⟩ := lastPlace_of_ne_nil source.toList hchars 0
    have hstop : tree.stop = Position.ofOffset (init ++ [last]) (Text.byteLength init) := by
      rw [htree, cover, hslice]
      rw [Nat.zero_add, Nat.zero_add] at hlast
      rw [hlast, hinit]
    refine .intro ⟨[], init, last, [], ?_, ?_, hplace, ?_⟩ (fun child hchild => ⟨?_, ?_⟩)
      hspread.ordered hspread.located
    · rw [List.nil_append, List.append_nil, hinit]
    · rw [htext, hinit]
    · rw [hstop]
      exact Position.ofOffset_endOf init [last]
    · rw [hplace.offset]
      exact Nat.zero_le _
    · obtain ⟨l, hl, hle⟩ := hspread.stops child hchild
      have hend : tree.endOffset = Text.byteLength source.toList := by
        rw [endOffset, hplace.offset, htext]
        exact Nat.zero_add _
      rw [hend]
      exact hle.trans (hlaid.lie l hl).stop_isCut.le
  · subst hempty
    obtain rfl := Except.ok.inj hscan
    obtain hnil := List.forall₂_nil_left_iff.mp hitems
    rw [htree]
    exact ⟨rfl, hnil⟩

/-- The children of a tree stand in its text one after the other, and none ends with a newline. -/
theorem parse_children {source : String} {tree : Node} (h : parse source = .ok tree) :
    (∀ child ∈ tree.children, Stands source.toList child ∧
      child.text.toList.getLast? ≠ some '\n') ∧
    tree.children.Pairwise fun a b => a.endOffset ≤ b.start.offset := by
  obtain ⟨ls, hscan, hitems, -⟩ := ofSource_eq_ok.mp (parse_eq_ok.mp h)
  have hsub := Grammar.flatten_runs_sublist ls
  have hlaid := Lexeme.laid_runs hscan
  have hspread := Grammar.items_spread hitems hlaid
  refine ⟨fun child hchild => ⟨(hspread.located child hchild).stands, ?_⟩, hspread.ordered⟩
  have hruns : ∀ run ∈ Lexeme.runs ls, run.Sublist (Lexeme.runs ls).flatten :=
    fun run hrun => List.sublist_flatten_of_mem hrun
  have hitem := (List.forall₂_and_left _ _).mpr ⟨hruns, hitems⟩
  obtain ⟨run, hrun, hread⟩ := Outcome.exists_forall₂_iff.mp ⟨_, hitem.flip⟩ child hchild
  apply Grammar.Item.getLast?_text hread (hlaid.sublist hrun)
  exact fun l hl => Lexeme.scan_endsInline hscan l ((hrun.trans hsub).subset hl)

end Node

end RowRecipe
