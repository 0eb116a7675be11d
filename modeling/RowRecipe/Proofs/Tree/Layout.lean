import RowRecipe.Proofs.SymbolTable.Decoding
import RowRecipe.Proofs.Tree.Recasting

/-!
Trees and layout. What is a phrase of the grammar in one source is one in another source too, when it
has the same lexemes there, with other blocks of properties perhaps that have the same lexemes in them.
The nodes that the two phrases make have the same rules and the same leaves; their own texts have the
gaps between lexemes in them, which may differ.
-/

namespace RowRecipe

namespace Lexeme

variable {ls ls' : List Lexeme}

/-- No lexeme of a run ends it. -/
theorem inner_of_mem_split {current : List Lexeme} (hcurrent : Inner current) (endOffset : Nat)
    (ls : List Lexeme) : ∀ run ∈ Run.split endOffset current ls, Inner run.lexemes := by
  fun_induction Run.split endOffset current ls with
  | case1 => exact List.forall_mem_nil _
  | case2 => exact List.forall_mem_singleton.mpr hcurrent
  | case3 current l rest _ _ ih => exact ih inner_nil
  | case4 current l rest _ _ ih => exact List.forall_mem_cons.mpr ⟨hcurrent, ih inner_nil⟩
  | case5 current l rest hl ih =>
      exact ih (hcurrent.append (inner_cons (by simpa using hl) inner_nil))

theorem inner_of_mem_runs (ls : List Lexeme) : ∀ run ∈ runs ls, Inner run := by
  intro run hrun
  rw [← Grammar.lexemes_split 0 ls] at hrun
  obtain ⟨made, hmade, rfl⟩ := List.mem_map.mp hrun
  exact inner_of_mem_split inner_nil 0 ls made hmade

/-- The lexemes stand in the source with blanks only between each two of them, and are spelled as
their kinds ask for. -/
structure Aligned (source : List Char) (ls : List Lexeme) : Prop where
  laid : Laid source ls
  spaced : Spaced source ls
  spelled : ∀ l ∈ ls, l.Spelled

theorem aligned_of_mem_runs {source : List Char} (h : scan source 0 = .ok ls) :
    ∀ run ∈ runs ls, Aligned source run ∧ run <:+: ls := by
  intro run hrun
  rw [← Grammar.lexemes_split 0 ls] at hrun
  obtain ⟨made, hmade, rfl⟩ := List.mem_map.mp hrun
  have hinner : Inner made.lexemes := inner_of_mem_split inner_nil 0 ls made hmade
  have hinside : made.lexemes <:+: ls := Run.lexemes_infix made hmade
  have hlaid := laid_of_scan_zero h
  have hchain := List.IsChain.infix (chain_of_scan (List.nil_append source).symm h) hinside
  have hspaced : Spaced source made.lexemes := by
    refine hchain.imp_of_mem_imp fun a b _ hb hblank => hblank ?_
    intro hkind
    have hinner := hinner b hb
    rw [hkind] at hinner
    cases hinner
  have hspelled : ∀ l ∈ made.lexemes, l.Spelled := fun l hl => scan_spelled h l (hinside.subset hl)
  exact ⟨⟨hlaid.sublist hinside.sublist, hspaced, hspelled⟩, hinside⟩

namespace Aligned

variable {source : List Char} {more : List Lexeme}

theorem left (h : Aligned source (ls ++ more)) : Aligned source ls :=
  ⟨h.laid.left, h.spaced.left_of_append, (List.forall_mem_append.mp h.spelled).1⟩

theorem right (h : Aligned source (ls ++ more)) : Aligned source more :=
  ⟨h.laid.right, h.spaced.right_of_append, (List.forall_mem_append.mp h.spelled).2⟩

theorem tail {l : Lexeme} (h : Aligned source (l :: ls)) : Aligned source ls := by
  have htail : Aligned source ([l] ++ ls) := h
  exact htail.right

/-- The blanks between the first two lexemes. -/
theorem gap {l next : Lexeme} (h : Aligned source (l :: next :: more)) :
    ∀ c ∈ Text.slice source l.stop next.start, isSkipped c = true :=
  (List.isChain_cons_cons.mp h.spaced).1

/-- The text from the first lexeme on: its own, the gap, and the text from the second one on. -/
theorem slice_cons {l next : Lexeme} (h : Aligned source (l :: next :: more)) {stop : Nat}
    (hstop : Text.IsCut source stop) (hle : next.start ≤ stop) :
    Text.slice source l.start stop =
      l.text ++ (Text.slice source l.stop next.start ++ Text.slice source next.start stop) := by
  have hl := h.laid.lie l List.mem_cons_self
  have hnext := h.laid.lie next (List.mem_cons_of_mem _ List.mem_cons_self)
  have hgap : l.stop ≤ next.start := List.rel_of_pairwise_cons h.laid.ordered List.mem_cons_self
  rw [← hl.slice, Text.slice_append_slice hl.stop_isCut hnext.start_isCut hstop hgap hle,
    Text.slice_append_slice hl.start_isCut hl.stop_isCut hstop (Nat.le_of_lt (start_lt_stop hl))
      (hgap.trans hle)]

/-- The text over two lexemes. -/
theorem slice_pair {l next : Lexeme} (h : Aligned source (l :: next :: more)) :
    Text.slice source l.start next.stop =
      l.text ++ (Text.slice source l.stop next.start ++ next.text) := by
  have hnext := h.laid.lie next (List.mem_cons_of_mem _ List.mem_cons_self)
  rw [h.slice_cons hnext.stop_isCut (Nat.le_of_lt (start_lt_stop hnext)), hnext.slice]

/-- The text over three lexemes. -/
theorem slice_triple {l next last : Lexeme} (h : Aligned source (l :: next :: last :: more)) :
    Text.slice source l.start last.stop =
      l.text ++ (Text.slice source l.stop next.start ++
        (next.text ++ (Text.slice source next.stop last.start ++ last.text))) := by
  have hnext := h.laid.lie next (List.mem_cons_of_mem _ List.mem_cons_self)
  have hlast := h.laid.lie last
    (List.mem_cons_of_mem _ (List.mem_cons_of_mem _ List.mem_cons_self))
  have hgap : next.stop ≤ last.start :=
    List.rel_of_pairwise_cons h.tail.laid.ordered List.mem_cons_self
  have hle : next.start ≤ last.stop :=
    (Nat.le_of_lt (start_lt_stop hnext)).trans (hgap.trans (Nat.le_of_lt (start_lt_stop hlast)))
  rw [h.slice_cons hlast.stop_isCut hle, h.tail.slice_pair]

end Aligned

end Lexeme

namespace Node

/-- The two have the same rule, and their children are related place by place. -/
structure SameBy (R : Node → Node → Prop) (a b : Node) : Prop where
  rule : a.rule = b.rule
  children : List.Forall₂ R a.children b.children

/-- The two are leaves of the same rule with the same text. -/
structure SameLeaf (a b : Node) : Prop where
  rule : a.rule = b.rule
  text : a.text = b.text
  noChildren : a.children = [] ∧ b.children = []

/-- The two are made of the same leaves, whatever gaps there are between them. -/
inductive SameArgument : Node → Node → Prop
  | leaf {a b : Node} (h : SameLeaf a b) : SameArgument a b
  | list {a b : Node} (hrule : a.rule ∈ [.columnList, .textList, .boolList, .numberList])
      (h : SameBy SameLeaf a b) : SameArgument a b
  | entries {a b : Node} (hrule : a.rule ∈ [.rangeList, .propertyList])
      (h : SameBy (SameBy SameLeaf) a b) : SameArgument a b
  | expression {a b : Node} (hrule : a.rule = .condition) (hrule' : b.rule = .condition)
      (h : expressionBody (Text.trim a.text.toList) = expressionBody (Text.trim b.text.toList)) :
      SameArgument a b

/-- The node is the name of a directive. -/
def IsCommand (node : Node) : Prop := node.rule = .command ∨ node.rule = .customCommand

/-- The two are sentences of the same leaves. Of the names of two directives, nothing is said. -/
inductive SameItem : Node → Node → Prop
  | pragma {a b : Node} (hrule : a.rule ∈ [.loadPragma, .versionPragma]) (h : SameBy SameLeaf a b) :
      SameItem a b
  | directive {a b name name' : Node} {arguments arguments' : List Node} (hrule : a.rule = .directive)
      (hrule' : b.rule = .directive) (hchildren : a.children = name :: arguments)
      (hchildren' : b.children = name' :: arguments') (hname : name.IsCommand)
      (hname' : name'.IsCommand) (h : List.Forall₂ SameArgument arguments arguments') : SameItem a b

end Node

namespace Grammar

open Node Lexeme

variable (a b : List Char) {ls ls' : List Lexeme} {node : Node} {nodes : List Node}

theorem leaf_same {l l' : Lexeme} (h : l.Same l') (rule : Rule) :
    SameLeaf (leaf a rule l) (leaf b rule l') :=
  ⟨rfl, h.content, rfl, rfl⟩

/-- What is a phrase in one way is one in another way, with a related node, for the same lexemes. -/
def Carries (phrase phrase' : Phrase) (R : Node → Node → Prop) : Prop :=
  ∀ {ls ls' : List Lexeme} {node : Node}, phrase ls node → List.Forall₂ Same ls ls' →
    ∃ node', phrase' ls' node' ∧ R node node'

theorem Separated.carry {separator : List Lexeme → Prop} {phrase phrase' : Phrase}
    {R : Node → Node → Prop} (h : Separated separator phrase ls nodes)
    (hsame : List.Forall₂ Same ls ls')
    (hseparator : ∀ {ls ls' : List Lexeme}, separator ls → List.Forall₂ Same ls ls' → separator ls')
    (hphrase : Carries phrase phrase' R) :
    ∃ nodes', Separated separator phrase' ls' nodes' ∧ List.Forall₂ R nodes nodes' := by
  induction h generalizing ls' with
  | one hfirst =>
      obtain ⟨node', hnode, hR⟩ := hphrase hfirst hsame
      exact ⟨[node'], .one hnode, .cons hR .nil⟩
  | cons hfirst hbetween _ ih =>
      obtain ⟨first', rest', rfl, hfirst', hrest'⟩ := Outcome.forall₂_append_left hsame
      obtain ⟨between', more', rfl, hbetween', hmore'⟩ := Outcome.forall₂_append_left hrest'
      obtain ⟨node', hnode, hR⟩ := hphrase hfirst hfirst'
      obtain ⟨nodes', hnodes, hRs⟩ := ih hmore'
      exact ⟨node' :: nodes', .cons hnode (hseparator hbetween hbetween') hnodes, .cons hR hRs⟩

theorem Comma.carry (h : Comma ls) (hsame : List.Forall₂ Same ls ls') : Comma ls' := by
  obtain ⟨comma, rfl, hkind⟩ := h
  obtain ⟨comma', _, hcomma, hnil, rfl⟩ := List.forall₂_cons_left_iff.mp hsame
  obtain rfl := List.forall₂_nil_left_iff.mp hnil
  exact ⟨comma', rfl, hcomma.kind ▸ hkind⟩

theorem Newlines.carry (h : Newlines ls) (hsame : List.Forall₂ Same ls ls') : Newlines ls' := by
  intro l' hl'
  obtain ⟨l, hl, hlSame⟩ := Outcome.exists_mem_of_forall₂ hsame l' hl'
  rw [← hlSame.kind]
  exact h l hl

theorem PaddedComma.carry (h : PaddedComma ls) (hsame : List.Forall₂ Same ls ls') :
    PaddedComma ls' := by
  obtain ⟨before, comma, after, rfl, hbefore, hkind, hafter⟩ := h
  obtain ⟨before', _, rfl, hbefore', hrest⟩ := Outcome.forall₂_append_left hsame
  obtain ⟨comma', after', hcomma, hafter', rfl⟩ := List.forall₂_cons_left_iff.mp hrest
  exact ⟨before', comma', after', rfl, hbefore.carry hbefore', hcomma.kind ▸ hkind,
    hafter.carry hafter'⟩

theorem Single.carry (kind : Lexeme.Kind) (rule : Rule) :
    Carries (Single a kind rule) (Single b kind rule) SameLeaf := by
  rintro _ _ _ ⟨l, rfl, hkind, rfl⟩ hsame
  obtain ⟨l', _, hl, hnil, rfl⟩ := List.forall₂_cons_left_iff.mp hsame
  obtain rfl := List.forall₂_nil_left_iff.mp hnil
  exact ⟨_, ⟨l', rfl, hl.kind ▸ hkind, rfl⟩, leaf_same a b hl rule⟩

theorem Range.carry : Carries (Range a) (Range b) (SameBy SameLeaf) := by
  rintro _ _ _ ⟨hlow, hcolon, hhigh, hequals, hlabel⟩ hsame
  rcases hsame with _ | ⟨hlow', _ | ⟨hcolon', _ | ⟨hhigh', _ | ⟨hequals', _ | ⟨hlabel', _ | _⟩⟩⟩⟩⟩
  rw [hlabel'.kind] at hlabel
  exact ⟨_, .intro (hlow'.kind ▸ hlow) (hcolon'.kind ▸ hcolon) (hhigh'.kind ▸ hhigh)
    (hequals'.kind ▸ hequals) hlabel, rfl, .cons (leaf_same a b hlow' _)
      (.cons (leaf_same a b hhigh' _) (.cons (leaf_same a b hlabel' _) .nil))⟩

theorem Property.carry : Carries (Property a) (Property b) (SameBy SameLeaf) := by
  rintro _ _ _ ⟨hkey, hequals, hvalue⟩ hsame
  rcases hsame with _ | ⟨hkey', _ | ⟨hequals', _ | ⟨hvalue', _ | _⟩⟩⟩
  rw [hkey'.kind] at hkey
  rw [hvalue'.kind] at hvalue
  exact ⟨_, .intro hkey (hequals'.kind ▸ hequals) hvalue, rfl,
    .cons (leaf_same a b hkey' _) (.cons (leaf_same a b hvalue' _) .nil)⟩

theorem Properties.carry (h : Properties a ls nodes) (hsame : List.Forall₂ Same ls ls') :
    ∃ nodes', Properties b ls' nodes' ∧ List.Forall₂ (SameBy SameLeaf) nodes nodes' := by
  cases h with
  | none hblank => exact ⟨[], .none (hblank.carry hsame), .nil⟩
  | some hbefore hentries hafter =>
      obtain ⟨before', _, rfl, hbefore', hrest⟩ := Outcome.forall₂_append_left hsame
      obtain ⟨entries', after', rfl, hentries', hafter'⟩ := Outcome.forall₂_append_left hrest
      obtain ⟨nodes', hnodes, hR⟩ := hentries.carry hentries' PaddedComma.carry (Property.carry a b)
      exact ⟨nodes', .some (hbefore.carry hbefore') hnodes
        (hafter.imp (·.carry hafter') (·.carry hafter')), hR⟩

/-- The body of an expression is what its block has in it, whatever stands around the colon. -/
theorem expressionBody_coverLexemes {source : List Char} {name colon block : Lexeme}
    (h : Aligned source [name, colon, block]) (hword : name.content = "exp")
    (hcolon : colon.kind = .colon) {inner : List Char} (hblock : block.text = '{' :: (inner ++ ['}'])) :
    expressionBody (Text.trim
      (coverLexemes source .condition name [block] []).text.toList) = Text.trim inner := by
  have hname : name.text = "exp".toList := by
    rw [← hword, content, String.toList_ofList]
  have hmark : colon.text = [':'] :=
    (h.spelled colon (List.mem_cons_of_mem _ List.mem_cons_self)).colon hcolon
  have htext : (coverLexemes source .condition name [block] []).text.toList =
      markedText (Text.slice source name.stop colon.start) (Text.slice source colon.stop block.start)
        inner := by
    change (String.ofList (Text.slice source name.start block.stop)).toList = _
    rw [String.toList_ofList, h.slice_triple, hname, hmark, hblock]
    rfl
  rw [htext]
  exact expressionBody_marked (fun c hc => Text.isBlank_of_isSkipped (h.gap c hc))
    (fun c hc => Text.isBlank_of_isSkipped (h.tail.gap c hc)) inner

theorem items_same {listRule : Rule} {nodes' : List Node}
    (hrule : listRule ∈ [.columnList, .textList, .boolList, .numberList])
    (h : List.Forall₂ SameLeaf nodes nodes') :
    SameArgument (itemsNode a listRule nodes) (itemsNode b listRule nodes') := by
  rcases h with _ | ⟨hfirst, _ | ⟨hsecond, hmore⟩⟩
  · exact .list hrule ⟨rfl, .nil⟩
  · exact .leaf hfirst
  · exact .list hrule ⟨rfl, .cons hfirst (.cons hsecond hmore)⟩

theorem Argument.carry (h : Argument a ls node) (haligned : Aligned a ls) (haligned' : Aligned b ls')
    (hrecast : Recast Same ls ls') : ∃ node', Argument b ls' node' ∧ SameArgument node node' := by
  cases h with
  | list hkind hitems =>
      have hkinds : ∀ k ∈ listRules, (∀ kind ∈ [Kind.comma, k.1], kind ≠ .block) ∧
          k.2.2 ∈ [Rule.columnList, .textList, .boolList, .numberList] := by decide
      obtain ⟨hplain, hrule⟩ := hkinds _ hkind
      have hsame := hrecast.forall₂ fun l hl => hplain _ (hitems.kinds_single l hl)
      obtain ⟨nodes', hnodes, hleaves⟩ := hitems.carry hsame Comma.carry (Single.carry a b _ _)
      exact ⟨_, .list hkind hnodes, items_same a b hrule hleaves⟩
  | ranges hranges =>
      have hplain : ∀ kind ∈ [Kind.comma, .number, .colon, .equals, .string], kind ≠ .block := by
        decide
      have hsame := hrecast.forall₂ fun l hl => hplain _ (hranges.kinds_range l hl)
      obtain ⟨nodes', hnodes, hentries⟩ := hranges.carry hsame Comma.carry (Range.carry a b)
      exact ⟨_, .ranges hnodes, .entries List.mem_cons_self ⟨rfl, hentries⟩⟩
  | quantity hkind =>
      rcases hrecast with _ | ⟨hl, _ | _⟩
      refine ⟨_, .quantity (hl.kind ▸ hkind), .leaf ?_⟩
      rw [hl.text]
      exact leaf_same a b hl _
  | block hkind =>
      rcases hrecast with _ | ⟨hl, _ | _⟩
      exact ⟨_, .block (hl.kind ▸ hkind), .leaf (leaf_same a b hl _)⟩
  | name hkind =>
      rcases hrecast with _ | ⟨hl, _ | _⟩
      exact ⟨_, .name (hl.kind ▸ hkind), .leaf (leaf_same a b hl _)⟩
  | @expression name colon block hname hword hcolon hblock =>
      rcases hrecast with _ | ⟨hname', _ | ⟨hcolon', _ | ⟨hblock', _ | _⟩⟩⟩ | ⟨_, _, hlists⟩
      · have hmem : block ∈ [name, colon, block] := by simp
        obtain ⟨inner, hinner⟩ := (haligned.spelled block hmem).block hblock
        have hbody := expressionBody_coverLexemes haligned hword hcolon hinner
        rw [hname'.content] at hword
        rw [hcolon'.kind] at hcolon
        have hbody' := expressionBody_coverLexemes haligned' hword hcolon (hblock'.text ▸ hinner)
        exact ⟨_, .expression (hname'.kind ▸ hname) hword hcolon (hblock'.kind ▸ hblock),
          .expression rfl rfl (hbody.trans hbody'.symm)⟩
      · rw [hlists.word] at hword
        exact absurd hword (by decide)
  | properties hname hword hcolon hblock hinner hentries =>
      obtain ⟨name', colon', block', inner', rfl, hlists, hsame⟩ :=
        ListsProperties.recast ⟨hname, hword, hcolon, hblock, hinner⟩ hrecast
      obtain ⟨nodes', hnodes, hR⟩ := Properties.carry a b hentries hsame
      exact ⟨_, .properties hlists.isIdentifier hlists.word hlists.isColon hlists.isBlock
        hlists.scanned hnodes, .entries (List.mem_cons_of_mem _ List.mem_cons_self) ⟨rfl, hR⟩⟩

theorem Arguments.carry (h : Arguments a ls nodes) (haligned : Aligned a ls)
    (haligned' : Aligned b ls') (hrecast : Recast Same ls ls') :
    ∃ nodes', Arguments b ls' nodes' ∧ List.Forall₂ SameArgument nodes nodes' := by
  induction h generalizing ls' with
  | nil =>
      cases hrecast
      exact ⟨[], .nil, .nil⟩
  | cons hfirst hmore ih =>
      obtain ⟨first', more', rfl, hfirst', hmore'⟩ := hrecast.split_arguments hfirst.last hmore
      obtain ⟨node', hnode, hargument⟩ :=
        hfirst.carry a b haligned.left haligned'.left hfirst'
      obtain ⟨nodes', hnodes, harguments⟩ := ih haligned.right haligned'.right hmore'
      exact ⟨node' :: nodes', .cons hnode hnodes, .cons hargument harguments⟩

theorem Command.carry :
    Carries (Command a) (Command b) fun name name' => name.IsCommand ∧ name'.IsCommand := by
  rintro _ _ _ hname hsame
  cases hname with
  | name hkind =>
      rcases hsame with _ | ⟨hl, _ | _⟩
      exact ⟨_, .name (hl.kind ▸ hkind), .inl rfl, .inl rfl⟩
  | custom hbang hkind =>
      rcases hsame with _ | ⟨hbang', _ | ⟨hname', _ | _⟩⟩
      exact ⟨_, .custom (hbang'.kind ▸ hbang) (hname'.kind ▸ hkind), .inr rfl, .inr rfl⟩

theorem Item.carry (h : Item a ls node) (haligned : Aligned a ls) (haligned' : Aligned b ls')
    (hrecast : Recast Same ls ls') : ∃ node', Item b ls' node' ∧ SameItem node node' := by
  cases h with
  | @loadables start word names _ hstart hkind hword hnames =>
      have hplain : ∀ l ∈ start :: word :: names, l.kind ≠ .block := by
        have hkinds : ∀ kind ∈ [Kind.comma, .identifier], kind ≠ .block := by decide
        refine List.forall_mem_cons.mpr ⟨by rw [hstart]; decide, List.forall_mem_cons.mpr
          ⟨by rw [hkind]; decide, fun l hl => hkinds _ (hnames.kinds_single l hl)⟩⟩
      rcases hrecast.forall₂ hplain with _ | ⟨hstart', _ | ⟨hword', hrest⟩⟩
      obtain ⟨nodes', hnodes, hR⟩ := hnames.carry hrest Comma.carry (Single.carry a b _ _)
      exact ⟨_, .loadables (hstart'.kind ▸ hstart) (hword'.kind ▸ hkind) (hword'.content ▸ hword)
        hnodes, .pragma List.mem_cons_self ⟨rfl, hR⟩⟩
  | version hstart hkind hword hvalue =>
      rcases hrecast with _ | ⟨hstart', _ | ⟨hword', _ | ⟨hvalue', _ | _⟩⟩⟩ | ⟨_, _, hlists⟩
      · rw [hvalue'.kind] at hvalue
        exact ⟨_, .version (hstart'.kind ▸ hstart) (hword'.kind ▸ hkind) (hword'.content ▸ hword)
          hvalue, .pragma (List.mem_cons_of_mem _ List.mem_cons_self)
            ⟨rfl, .cons (leaf_same a b hvalue' _) .nil⟩⟩
      · rw [hlists.isIdentifier] at hstart
        cases hstart
  | directive hname harguments =>
      obtain ⟨taken', more', rfl, htaken, hmore⟩ := hrecast.split_arguments hname.last harguments
      obtain ⟨name', hname', hcommands⟩ := Command.carry a b hname (htaken.forall₂ hname.kinds)
      obtain ⟨nodes', hnodes, hR⟩ :=
        harguments.carry a b haligned.right haligned'.right hmore
      exact ⟨_, .directive hname' hnodes,
        .directive rfl rfl rfl rfl hcommands.1 hcommands.2 hR⟩

theorem items_carry {runs runs' : List (List Lexeme)} (h : List.Forall₂ (Item a) runs nodes)
    (haligned : ∀ run ∈ runs, Aligned a run) (haligned' : ∀ run ∈ runs', Aligned b run)
    (hrecast : List.Forall₂ (Recast Same) runs runs') :
    ∃ nodes', List.Forall₂ (Item b) runs' nodes' ∧ List.Forall₂ SameItem nodes nodes' := by
  induction h generalizing runs' with
  | nil =>
      obtain rfl := List.forall₂_nil_left_iff.mp hrecast
      exact ⟨[], .nil, .nil⟩
  | cons hitem _ ih =>
      obtain ⟨run', rest', hrun, hrest, rfl⟩ := List.forall₂_cons_left_iff.mp hrecast
      obtain ⟨hfirst, hmore⟩ := List.forall_mem_cons.mp haligned
      obtain ⟨hfirst', hmore'⟩ := List.forall_mem_cons.mp haligned'
      obtain ⟨node', hnode, hR⟩ := hitem.carry a b hfirst hfirst' hrun
      obtain ⟨nodes', hnodes, hRs⟩ := ih hmore hmore' hrest
      exact ⟨node' :: nodes', .cons hnode hnodes, .cons hR hRs⟩

/-- When one text is a recipe, so is any other text whose lexemes are the same but for what stands in
blocks of properties between the same lexemes. Its tree has the same sentences. -/
theorem parse_recast {source source' : String} (hscan : scan source.toList 0 = .ok ls)
    (hscan' : scan source'.toList 0 = .ok ls') (hrecast : Recast Same ls ls') {tree : Node}
    (h : parse source = .ok tree) :
    ∃ tree', parse source' = .ok tree' ∧ List.Forall₂ SameItem tree.children tree'.children := by
  obtain ⟨found, hfound, hitems, -⟩ := ofSource_eq_ok.mp (parse_eq_ok.mp h)
  obtain rfl := Except.ok.inj (hscan.symm.trans hfound)
  obtain ⟨nodes', hnodes, hR⟩ := items_carry _ _ hitems
    (fun run hrun => (aligned_of_mem_runs hscan run hrun).1)
    (fun run hrun => (aligned_of_mem_runs hscan' run hrun).1)
    (hrecast.runs fun _ _ h => h.kind)
  refine ⟨cover source'.toList .recipe 0 (Text.byteLength source'.toList) nodes', ?_, hR⟩
  exact parse_eq_ok.mpr (ofSource_eq_ok.mpr ⟨ls', hscan', hnodes, rfl⟩)

end Grammar

end RowRecipe
