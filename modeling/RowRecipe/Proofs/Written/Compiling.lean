import RowRecipe.Proofs.SymbolTable.Groups
import RowRecipe.Proofs.Tree.Acceptance
import RowRecipe.Proofs.Tree.Runs
import RowRecipe.Proofs.Written.Reading

/-!
Compiling what was written. Every line of a written recipe is one run, which is read as the item on
it, and the item adds to the table what it means. So compiling a recipe gives it back.
-/

namespace RowRecipe

namespace Written

open Lexeme Pattern Node

variable {source before rest : List Char}

theorem apart_arguments (arguments : List Argument) (hrest : Apart rest) :
    Apart ((arguments.flatMap fun a => ' ' :: a.text) ++ rest) := by
  cases arguments with
  | nil => exact hrest
  | cons a more => exact apart_cons (by decide) _

theorem arguments_reads (arguments : List Argument)
    (hsource : source = before ++ ((arguments.flatMap fun a => ' ' :: a.text) ++ rest))
    (hrest : Apart rest) :
    ∃ ls nodes, Lexes (arguments.flatMap fun a => ' ' :: a.text) (Text.byteLength before) ls rest ∧
      Grammar.Arguments source ls nodes ∧
      ∀ span, nodes.mapM (token span) = .ok (arguments.map Argument.token) := by
  induction arguments generalizing before with
  | nil => exact ⟨[], [], .nil _ rest, .nil, fun span => rfl⟩
  | cons a more ih =>
      rw [List.flatMap_cons] at hsource ⊢
      generalize htail : (more.flatMap fun a => ' ' :: a.text) = tail at hsource ih ⊢
      have happart : Apart (tail ++ rest) := by
        rw [← htail]
        exact apart_arguments more hrest
      have hfirst : source = (before ++ [' ']) ++ (a.text ++ (tail ++ rest)) := by
        rw [hsource]
        simp
      have hmore : source = (before ++ ' ' :: a.text) ++ (tail ++ rest) := by
        rw [hsource]
        simp
      obtain ⟨ls, node, hlexes, hne, hargument, htoken⟩ := argument_reads a hfirst happart
      obtain ⟨others, nodes, hothers, harguments, htokens⟩ := ih hmore
      rw [Text.byteLength_append] at hlexes hothers
      refine ⟨ls ++ others, node :: nodes, (hlexes.blank hne).append hothers,
        .cons hargument harguments, fun span => ?_⟩
      rw [List.mapM_cons, htoken span, htokens span]
      rfl

theorem command_reads (d : Directive) (hsource : source = before ++ (d.command ++ rest))
    (hrest : Apart rest) :
    ∃ ls node, Lexes d.command (Text.byteLength before) ls rest ∧
      (∃ first ∈ ls.head?, first.start = Text.byteLength before) ∧ Grammar.Command source ls node ∧
      ∀ span, token span node = .ok (.directiveName d.name.content) := by
  obtain ⟨custom, name, arguments⟩ := d
  cases custom with
  | false =>
      refine ⟨_, _, .one (name.longest hrest) _, ⟨_, rfl, rfl⟩, .name rfl, fun span => ?_⟩
      exact name.token_command span (leaf_isLeaf _ _ _)
  | true =>
      have hbang := Lexes.sign (show (Kind.bang, '!') ∈ _ by decide) (Text.byteLength before)
        (name.text ++ rest)
      have hname := Lexes.one (name.longest hrest) (Text.byteLength before + Text.byteLength ['!'])
      have hlexes := hbang.append hname
      refine ⟨_, _, hlexes, ⟨_, rfl, rfl⟩, .custom rfl rfl, fun span => ?_⟩
      exact name.token_customCommand span (cover_isLeaf hsource .customCommand rfl hlexes.stop [])

def loadName : Name :=
  ⟨'l', "oad-directives".toList, by decide, List.all_eq_true.mp (by decide), by decide⟩

def versionName : Name :=
  ⟨'v', "ersion".toList, by decide, List.all_eq_true.mp (by decide), by decide⟩

/-- The text of a pragma falls into its mark, its name and the lexemes of what it says. -/
theorem pragma_lexes (word : Name) (base : Nat) {text : List Char} {ls : List Lexeme} (hne : ls ≠ [])
    (h : Lexes text (base + Text.byteLength "#pragma".toList + 1 + Text.byteLength word.text + 1)
      ls rest) :
    Lexes ("#pragma".toList ++ ' ' :: (word.text ++ ' ' :: text)) base
      (⟨.pragma, "#pragma".toList, base⟩ ::
        ⟨.identifier, word.text, base + Text.byteLength "#pragma".toList + 1⟩ :: ls) rest := by
  have hstart : Lexes "#pragma".toList base [⟨.pragma, "#pragma".toList, base⟩]
      ((' ' :: (word.text ++ ' ' :: text)) ++ rest) :=
    .one (longest_pragma _) base
  have hword : ∀ base, Lexes word.text base [⟨.identifier, word.text, base⟩]
      ((' ' :: text) ++ rest) := by
    intro base
    exact .one (word.longest (apart_cons (by decide) _)) base
  exact hstart.append (((hword _).append (h.blank hne)).blank (List.cons_ne_nil _ _))

def Version.rule : Version → Kind × Rule
  | .number _ _ => (.number, .number)
  | .name _ => (.identifier, .identifier)

theorem Version.longest (v : Version) (hrest : Apart rest) :
    longest (v.written ++ rest) = some (v.rule.1, v.written.length) := by
  cases v with
  | number text shape => exact longest_number shape hrest
  | name n => exact n.longest hrest

theorem Version.trimmed_text {rule : Rule} {node : Node} (v : Version)
    (h : IsLeaf rule v.written node) : Text.trimmed node.text = String.ofList v.written := by
  cases v with
  | number text shape =>
      rw [Text.trimmed, h.toList]
      exact congrArg String.ofList (Text.trim_of_forall shape.not_blank)
  | name n => exact n.trimmed_text h

/-- What the node of an item adds to a table. -/
def Means (node : Node) : Item → Prop
  | .loadables first more => node.rule = .loadPragma ∧
      (node.childrenBy .identifier).map (fun name => Text.trimmed name.text) =
        (first :: more).map Name.content
  | .version v => node.rule = .versionPragma ∧
      ∃ child, node.children = [child] ∧ Text.trimmed child.text = String.ofList v.written
  | .directive d => node.rule = .directive ∧
      ∀ span, node.children.mapM (token span) = .ok d.tokens

theorem item_reads (item : Item) (hsource : source = before ++ (item.text ++ rest))
    (hrest : Apart rest) :
    ∃ ls node, Lexes item.text (Text.byteLength before) ls rest ∧
      (∃ first ∈ ls.head?, first.start = Text.byteLength before) ∧ Grammar.Item source ls node ∧
      Means node item := by
  cases item with
  | loadables first more =>
      obtain ⟨ls, nodes, hlexes, hne, hphrases, hnodes⟩ := reads_separated comma_of_kind
        (fun n => reads_single (Name.longest n) .identifier) first more source _ rest hrest
      refine ⟨_, _, pragma_lexes loadName _ hne hlexes, ⟨_, rfl, rfl⟩,
        .loadables rfl rfl rfl hphrases, rfl, ?_⟩
      exact map_childrenBy hnodes rfl (fun _ _ hn => hn.1) fun n _ hn => n.trimmed_text hn
  | version v =>
      have hlexes := Lexes.one (v.longest hrest)
      have hrule : v.rule ∈ [(Kind.number, Rule.number), (.identifier, .identifier)] := by
        cases v <;> simp [Version.rule]
      refine ⟨_, _, pragma_lexes versionName _ (List.cons_ne_nil _ _) (hlexes _), ⟨_, rfl, rfl⟩,
        .version rfl rfl rfl hrule, rfl, _, rfl, ?_⟩
      exact v.trimmed_text (leaf_isLeaf _ _ _)
  | directive d =>
      change source = before ++ (d.command ++ (d.arguments.flatMap fun a => ' ' :: a.text) ++ rest)
        at hsource
      rw [List.append_assoc] at hsource
      obtain ⟨ls, name, hcommand, hstart, hname, htoken⟩ :=
        command_reads d hsource (apart_arguments d.arguments hrest)
      rw [← List.append_assoc] at hsource
      obtain ⟨others, nodes, hothers, harguments, htokens⟩ :=
        arguments_reads d.arguments hsource hrest
      rw [Text.byteLength_append] at hothers
      obtain ⟨first, hfirst, hbase⟩ := hstart
      refine ⟨_, _, hcommand.append hothers,
        ⟨first, List.mem_head?_append_of_mem_head? hfirst, hbase⟩, .directive hname harguments, rfl,
        fun span => ?_⟩
      change (name :: nodes).mapM (token span) = _
      rw [List.mapM_cons, htoken span, htokens span]
      rfl

theorem eq_of_append_eq {a b c d : List Char} (h : a ++ b = c ++ d)
    (hlength : Text.byteLength a = Text.byteLength c) : a = c := by
  rw [← Text.takeBytes_byteLength_append a b, h, hlength, Text.takeBytes_byteLength_append]

/-- A node that covers all of a line's text has the place of that line. -/
theorem span_eq_place {ls : List Lexeme} {node : Node} {text : List Char}
    (hcovers : node.Covers source ls) (hsource : source = before ++ (text ++ rest))
    (hline : before = [] ∨ before.getLast? = some '\n')
    (hstart : ∃ first ∈ ls.head?, first.start = Text.byteLength before)
    (hstop : stopOf (Text.byteLength before) ls = Text.byteLength before + Text.byteLength text) :
    node.span = place before text := by
  obtain ⟨first, hfirst, hnode⟩ := hcovers.start
  obtain ⟨first', hfirst', hbefore⟩ := hstart
  obtain rfl := Option.some.inj (hfirst.symm.trans hfirst')
  rw [hbefore] at hnode
  have hoffset : node.start.offset = Text.byteLength before := by rw [hnode]; rfl
  have htext : node.text.toList = text := by
    obtain ⟨last, hlast, hend⟩ := hcovers.stop
    obtain ⟨front, back, hparts, hfront⟩ := hcovers.text
    rw [hsource, List.append_assoc] at hparts
    obtain rfl := eq_of_append_eq hparts (by rw [← hfront, hoffset])
    have hlength : Text.byteLength before + Text.byteLength node.text.toList =
        Text.byteLength before + Text.byteLength text := by
      rw [← hstop, stopOf, Option.mem_def.mp hlast, Option.map_some, Option.getD_some, ← hend,
        endOffset, hoffset]
    exact (eq_of_append_eq (List.append_cancel_left hparts) (Nat.add_left_cancel hlength).symm).symm
  obtain ⟨init, c, hinit, hlast⟩ := hcovers.lastCharacter
  have hdropLast : text.dropLast = init := by
    rw [← htext, hinit, List.dropLast_concat]
  have hcontent : String.ofList text = node.text := by
    rw [← htext, String.ofList_toList]
  have hfirstPlace : Text.takeBytes (Text.byteLength before) source = before := by
    rw [hsource, Text.takeBytes_byteLength_append]
  have hlastPlace : Text.takeBytes (Text.byteLength before + Text.byteLength init) source =
      before ++ init := by
    have hparts : source = (before ++ init) ++ ([c] ++ rest) := by
      rw [hsource, ← htext, hinit]
      simp
    rw [← Text.byteLength_append, hparts, Text.takeBytes_byteLength_append]
  -- the line that the text ends on starts in the text itself
  have hcolumn := fun text => (Frame.mk before rest hline).column_around text
  have hfirstColumn := hcolumn []
  rw [List.append_nil] at hfirstColumn
  rw [hoffset] at hlast
  simp only [span, hnode, hlast, Position.ofOffset_eq_afterText, hfirstPlace, hlastPlace, Position.afterText,
    hfirstColumn, hcolumn, place, hdropLast, hcontent]
  rfl

open SymbolTable Builder

theorem addItem_state {item : Item} {node : Node} (h : Means node item)
    (hspan : node.span = place before item.text) (groups : List TokenGroup)
    (asked versions : List String) :
    addItem (state groups asked versions) node =
      .ok (state (groups ++ item.groups before) (asked ++ item.requested)
        (versions ++ item.version?.toList)) := by
  cases item with
  | loadables first more =>
      obtain ⟨hrule, hnames⟩ := h
      rw [addItem, hrule]
      have hfold := foldl_addLoadable_state groups asked versions ((first :: more).map Name.content)
      rw [← hnames, List.foldl_map, hnames] at hfold
      change Except.ok (List.foldl (fun b (name : Node) => b.addLoadable (Text.trimmed name.text))
        (state groups asked versions) (node.childrenBy .identifier)) =
          Except.ok (state (groups ++ []) (asked ++ (first :: more).map Name.content) (versions ++ []))
      rw [hfold, List.append_nil, List.append_nil]
  | version v =>
      obtain ⟨hrule, child, hchildren, hversion⟩ := h
      rw [addItem, hrule, hchildren]
      change Except.ok ((state groups asked versions).setVersion (Text.trimmed child.text)) =
        Except.ok (state (groups ++ []) (asked ++ []) (versions ++ [String.ofList v.written]))
      rw [hversion, List.append_nil, List.append_nil]
      simp only [state, List.getLast?_concat]
      rfl
  | directive d =>
      obtain ⟨hrule, htokens⟩ := h
      rw [addItem_directive rfl hrule, htokens, hspan]
      change Except.ok ((state groups asked versions).addGroup ⟨d.tokens, place before d.text⟩) =
        Except.ok (state (groups ++ [⟨d.tokens, place before d.text⟩]) (asked ++ []) (versions ++ []))
      rw [List.append_nil, List.append_nil]
      rfl

/-- What stands behind the first line: nothing, or a newline and the other lines. -/
theorem text_cons (item : Item) (more : List Item) (ended : Bool) :
    (Recipe.text ⟨item :: more, ended⟩ = item.text ∧ more = []) ∨
      ∃ ended', Recipe.text ⟨item :: more, ended⟩ =
        item.text ++ (['\n'] ++ Recipe.text ⟨more, ended'⟩) := by
  cases more with
  | nil =>
      cases ended with
      | false =>
          refine .inl ⟨?_, rfl⟩
          simp [Recipe.text, List.intercalate]
      | true =>
          refine .inr ⟨false, ?_⟩
          simp [Recipe.text, List.intercalate]
  | cons second more =>
      refine .inr ⟨ended, ?_⟩
      simp only [Recipe.text, List.map_cons, List.intercalate_cons_cons, List.append_assoc]

theorem filterMap_cons_eq (item : Item) (more : List Item) :
    (item :: more).filterMap Item.version? =
      item.version?.toList ++ more.filterMap Item.version? := by
  cases hversion : item.version? with
  | none => rw [List.filterMap_cons_none hversion, Option.toList_none, List.nil_append]
  | some v => rw [List.filterMap_cons_some hversion, Option.toList_some, List.singleton_append]

/-- One line is read as one run, which adds its item to the table. -/
theorem line_read (item : Item) (hsource : source = before ++ (item.text ++ rest))
    (hrest : Apart rest) (hline : before = [] ∨ before.getLast? = some '\n') :
    ∃ run node, Lexes item.text (Text.byteLength before) run rest ∧ run ≠ [] ∧
      Grammar.Item source run node ∧
      (Laid source run → ∀ done asked versions, addItem (state done asked versions) node =
        .ok (state (done ++ item.groups before) (asked ++ item.requested)
          (versions ++ item.version?.toList))) := by
  obtain ⟨run, node, hlexes, hstart, hitem, hmeans⟩ := item_reads item hsource hrest
  refine ⟨run, node, hlexes, ?_, hitem, fun hlaid => ?_⟩
  · rintro rfl
    obtain ⟨first, hfirst, -⟩ := hstart
    cases hfirst
  · exact addItem_state hmeans (span_eq_place (hitem.covers hlaid) hsource hline hstart hlexes.stop)

/-- Line after line, a recipe is read and its items are added to the table. -/
theorem lines_read (items : List Item) (ended : Bool)
    (hsource : source = before ++ Recipe.text ⟨items, ended⟩)
    (hline : before = [] ∨ before.getLast? = some '\n') :
    ∃ ls nodes, scan (Recipe.text ⟨items, ended⟩) (Text.byteLength before) = .ok ls ∧
      List.Forall₂ (Grammar.Item source) (runs ls) nodes ∧
      (Laid source ls → ∀ done asked versions, nodes.foldlM addItem (state done asked versions) =
        .ok (state (done ++ groups before items) (asked ++ items.flatMap Item.requested)
          (versions ++ items.filterMap Item.version?))) := by
  induction items generalizing before ended with
  | nil =>
      have hnodes : ∀ done asked versions, ([] : List Node).foldlM addItem
          (state done asked versions) = .ok (state (done ++ groups before [])
            (asked ++ [].flatMap Item.requested) (versions ++ [].filterMap Item.version?)) := by
        intro done asked versions
        rw [groups, List.flatMap_nil, List.filterMap_nil, List.append_nil, List.append_nil,
          List.append_nil]
        rfl
      cases ended with
      | false => exact ⟨[], [], rfl, .nil, fun _ => hnodes⟩
      | true =>
          have hnewline := Lexes.sign (show (Kind.newline, '\n') ∈ _ by decide)
            (Text.byteLength before) []
          exact ⟨_, [], hnewline.scan_eq_ok, .nil, fun _ => hnodes⟩
  | cons item more ih =>
      rcases text_cons item more ended with ⟨htext, rfl⟩ | ⟨ended', htext⟩
      · rw [htext] at hsource ⊢
        rw [← List.append_nil item.text] at hsource
        obtain ⟨run, node, hlexes, hne, hitem, hadd⟩ := line_read item hsource apart_nil hline
        refine ⟨run, [node], hlexes.scan_eq_ok, ?_, fun hlaid done asked versions => ?_⟩
        · rw [runs_of_inner hitem.inner hne]
          exact .cons hitem .nil
        · rw [List.foldlM_cons, hadd hlaid, groups, groups, List.append_nil, List.flatMap_singleton,
            filterMap_cons_eq, List.filterMap_nil, List.append_nil]
          rfl
      · rw [htext] at hsource ⊢
        have hrest : source = (before ++ item.text ++ ['\n']) ++ Recipe.text ⟨more, ended'⟩ := by
          rw [hsource]
          simp
        obtain ⟨run, node, hlexes, hne, hitem, hadd⟩ :=
          line_read item hsource (apart_cons (by decide) _) hline
        obtain ⟨others, nodes, hscan, hitems, hfold⟩ := ih ended' hrest (.inr List.getLast?_concat)
        have hnewline := Lexes.sign (show (Kind.newline, '\n') ∈ _ by decide)
          (Text.byteLength before + Text.byteLength item.text) (Recipe.text ⟨more, ended'⟩)
        rw [Text.byteLength_append, Text.byteLength_append] at hscan
        have hscanned : scan (item.text ++ (['\n'] ++ Recipe.text ⟨more, ended'⟩))
            (Text.byteLength before) =
              .ok (run ++ ⟨.newline, ['\n'], Text.byteLength before + Text.byteLength item.text⟩ ::
                others) := by
          rw [hlexes.scan, hnewline.scan, hscan]
          rfl
        refine ⟨_, node :: nodes, hscanned, ?_, fun hlaid done asked versions => ?_⟩
        · rw [runs_append_cons hitem.inner hne rfl]
          exact .cons hitem hitems
        · have hmore := hfold (hlaid.right.sublist (List.sublist_cons_self _ _))
          rw [List.foldlM_cons, hadd hlaid.left, groups, filterMap_cons_eq, List.flatMap_cons,
            ← List.append_assoc, ← List.append_assoc, ← List.append_assoc]
          exact hmore _ _ _

/-- Compiling a written recipe gives back what was written: one group for each directive, in order
and in its place, which has the name of the directive and exactly its arguments; the directives that
the pragmas ask for, in the order in which they are first named; and the version declared last. -/
theorem compile_written (r : Recipe) : compile (String.ofList r.text) = .ok r.table := by
  have hsource : r.text = [] ++ Recipe.text ⟨r.items, r.ended⟩ := rfl
  obtain ⟨ls, nodes, hscan, hitems, hfold⟩ := lines_read r.items r.ended hsource (.inl rfl)
  have hlaid : Laid r.text ls := laid_of_scan_zero hscan
  have hparse : Node.parse (String.ofList r.text) =
      .ok (cover r.text .recipe 0 (Text.byteLength r.text) nodes) := by
    rw [parse_eq_ok, String.toList_ofList]
    exact ofSource_eq_ok.mpr ⟨ls, hscan, hitems, rfl⟩
  have htable : ofTree (cover r.text .recipe 0 (Text.byteLength r.text) nodes) = .ok r.table := by
    have hitems := hfold hlaid [] [] []
    change (nodes.foldlM addItem (state [] [] [])).map build = _
    rw [hitems]
    rfl
  rw [compile, hparse]
  exact htable

-- A version and a custom directive, as they are written and as they are given back.
example :
    let name : Name :=
      ⟨'k', ['e', 'e', 'p'], rfl, by simp [Lexeme.Pattern.continuesName], by decide⟩
    let directive : Directive := ⟨true, name, [.columns ⟨'a', [], rfl, nofun⟩ []]⟩
    let version : Version := .number ['2'] (.plain (.whole (by decide) (by simp)))
    let recipe : Recipe := ⟨[.version version, .directive directive], true⟩
    String.ofList recipe.text = "#pragma version 2\n!keep :a\n" ∧
      recipe.table =
        ⟨[⟨[.directiveName "keep", .columnName "a"], ⟨2, 0, 2, 8, "!keep :a"⟩⟩], [], some "2"⟩ :=
  ⟨rfl, rfl⟩

end Written

end RowRecipe
