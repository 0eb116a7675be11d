import RowRecipe.Proofs.Tree.Framing

/-!
The readers of the grammar inside a frame, one lemma for each. They follow the definitions: a reader
that is a sequence of others agrees with itself in the frame because these do, and the node that it
makes covers lexemes or nodes whose places are known.
-/

namespace RowRecipe.Node

variable {f : Frame} {source : List Char} {ending ending' : Ending}

theorem last_liesIn {first : Lexeme} {more : List Lexeme} (hfirst : first.LiesIn source)
    (hmore : Placed.LiesIn source more) : (more.getLast?.getD first).LiesIn source := by
  cases hlast : more.getLast? with
  | none => exact hfirst
  | some l => exact hmore l (List.mem_of_getLast? hlast)

theorem coverLexemes_around {first : Lexeme} {more : List Lexeme} (hfirst : first.LiesIn source)
    (hmore : Placed.LiesIn source more) (rule : Rule) (children : List Node) :
    coverLexemes (f.around source) rule (first.shift f.bytes)
        (Placed.moved f.bytes f.lines more) (Placed.moved f.bytes f.lines children) =
      (coverLexemes source rule first more children).moved f.bytes f.lines := by
  have hstop : ((Placed.moved f.bytes f.lines more).getLast?.getD (first.shift f.bytes)).stop =
      (more.getLast?.getD first).stop + f.bytes := by
    have hlast : (Placed.moved f.bytes f.lines more).getLast? =
        more.getLast?.map (Lexeme.shift f.bytes) := List.getLast?_map
    rw [hlast, Option.getD_map, Lexeme.shift_stop]
  rw [coverLexemes, hstop]
  exact cover_around hfirst.start_isCut (last_liesIn hfirst hmore).stop_isCut rule children

theorem coverLexemes_liesIn {first : Lexeme} {more : List Lexeme} (hfirst : first.LiesIn source)
    (hmore : Placed.LiesIn source more) (rule : Rule) (children : List Node) :
    (coverLexemes source rule first more children).LiesIn source :=
  cover_liesIn hfirst.start_isCut (last_liesIn hfirst hmore).stop_isCut rule children

theorem leaves_around {ls : List Lexeme} (h : Placed.LiesIn source ls) (rule : Rule) :
    (Placed.moved f.bytes f.lines ls).map (leaf (f.around source) rule) =
      Placed.moved f.bytes f.lines (ls.map (leaf source rule)) := by
  induction ls with
  | nil => rfl
  | cons l rest ih =>
      obtain ⟨hl, hrest⟩ := Placed.liesIn_cons.mp h
      rw [Placed.moved_cons, Placed.moved_lexeme, List.map_cons, ih hrest, leaf_around hl,
        List.map_cons, Placed.moved_cons, Placed.moved_node]

/-- A node over lexemes with leaves for children, each of its own rule. -/
theorem coverLeaves_around {first : Lexeme} {more : List Lexeme} {parts : List (Rule × Lexeme)}
    (hfirst : first.LiesIn source) (hmore : Placed.LiesIn source more)
    (hparts : Placed.LiesIn source parts) (rule : Rule) :
    coverLexemes (f.around source) rule (first.shift f.bytes)
        (Placed.moved f.bytes f.lines more)
        ((Placed.moved f.bytes f.lines parts).map fun p => leaf (f.around source) p.1 p.2) =
      (coverLexemes source rule first more
        (parts.map fun p => leaf source p.1 p.2)).moved f.bytes f.lines := by
  have hleaves : (Placed.moved f.bytes f.lines parts).map
      (fun p => leaf (f.around source) p.1 p.2) =
        Placed.moved f.bytes f.lines (parts.map fun p => leaf source p.1 p.2) := by
    induction parts with
    | nil => rfl
    | cons p rest ih =>
        obtain ⟨⟨-, hl⟩, hrest⟩ := Placed.liesIn_cons.mp hparts
        rw [Placed.moved_cons, List.map_cons, ih hrest, List.map_cons, Placed.moved_cons,
          Placed.moved_node, ← leaf_around hl]
        rfl
  rw [hleaves]
  exact coverLexemes_around hfirst hmore rule _

theorem ofItems_around {first : Lexeme} {more : List Lexeme} (hfirst : first.LiesIn source)
    (hmore : Placed.LiesIn source more) (itemRule listRule : Rule) :
    ofItems (f.around source) itemRule listRule (first.shift f.bytes)
        (Placed.moved f.bytes f.lines more) =
      (ofItems source itemRule listRule first more).moved f.bytes f.lines := by
  cases more with
  | nil => exact leaf_around hfirst itemRule
  | cons l rest =>
      have hleaves := leaves_around (f := f) (Placed.liesIn_cons.mpr ⟨hfirst, hmore⟩) itemRule
      have hcover := coverLexemes_around (f := f) hfirst hmore listRule
        ((first :: l :: rest).map (leaf source itemRule))
      rw [← hleaves] at hcover
      exact hcover

theorem ofItems_liesIn {first : Lexeme} {more : List Lexeme} (hfirst : first.LiesIn source)
    (hmore : Placed.LiesIn source more) (itemRule listRule : Rule) :
    (ofItems source itemRule listRule first more).LiesIn source := by
  cases more with
  | nil => exact leaf_liesIn hfirst itemRule
  | cons l rest => exact coverLexemes_liesIn hfirst hmore listRule _

theorem endOffset_moved (bytes lines : Nat) (node : Node) :
    (node.moved bytes lines).endOffset = node.endOffset + bytes := by
  simp only [moved_eq, endOffset, Position.moved]
  exact Nat.add_right_comm _ _ _

/-- The last of several nodes ends between characters. -/
theorem last_end_isCut {node : Node} {rest : List Node}
    (h : Placed.LiesIn source (node :: rest)) :
    Text.IsCut source (((node :: rest).getLast?.map endOffset).getD node.start.offset) := by
  cases hlast : (node :: rest).getLast? with
  | none => exact (Placed.liesIn_cons.mp h).1.start_isCut
  | some last => exact (h last (List.mem_of_getLast? hlast)).end_isCut

theorem coverNodes_around {node : Node} {rest : List Node}
    (h : Placed.LiesIn source (node :: rest)) (rule : Rule) :
    coverNodes (f.around source) rule (Placed.moved f.bytes f.lines (node :: rest)) =
      (coverNodes source rule (node :: rest)).moved f.bytes f.lines := by
  have hstart : (node.moved f.bytes f.lines).start.offset = node.start.offset + f.bytes := by
    rw [moved_eq]
    rfl
  have hlast : ((Placed.moved f.bytes f.lines (node :: rest)).getLast?.map endOffset).getD
      (node.start.offset + f.bytes) =
        ((node :: rest).getLast?.map endOffset).getD node.start.offset + f.bytes := by
    have hmap : (Placed.moved f.bytes f.lines (node :: rest)).getLast? =
        (node :: rest).getLast?.map (moved f.bytes f.lines) := List.getLast?_map
    cases hlast : (node :: rest).getLast? with
    | none =>
        rw [hmap, hlast]
        rfl
    | some last =>
        rw [hmap, hlast]
        exact endOffset_moved f.bytes f.lines last
  have hcover := cover_around (f := f) (Placed.liesIn_cons.mp h).1.start_isCut
    (last_end_isCut h) rule (node :: rest)
  rw [← hlast, ← hstart] at hcover
  exact hcover

theorem coverNodes_liesIn {node : Node} {rest : List Node}
    (h : Placed.LiesIn source (node :: rest)) (rule : Rule) :
    (coverNodes source rule (node :: rest)).LiesIn source :=
  cover_liesIn (Placed.liesIn_cons.mp h).1.start_isCut (last_end_isCut h) rule _

theorem range_framed {ls : List Lexeme} (h : Placed.LiesIn source ls) :
    Framed f source ending ending' (range source ending ls)
      (range (f.around source) ending' (Placed.moved f.bytes f.lines ls)) := by
  apply Framed.bind (Ending.expect_framed .rangeLow .number h)
  rintro ⟨low, ls⟩ - ⟨hlow, hls⟩
  apply Framed.bind (Ending.expect_framed .rangeColon .colon hls)
  rintro ⟨_, ls⟩ - ⟨-, hls⟩
  apply Framed.bind (Ending.expect_framed .rangeHigh .number hls)
  rintro ⟨high, ls⟩ - ⟨hhigh, hls⟩
  apply Framed.bind (Ending.expect_framed .rangeEquals .equals hls)
  rintro ⟨_, ls⟩ - ⟨-, hls⟩
  apply Framed.bind (Ending.expectOneOf_framed .rangeValue _ hls)
  rintro ⟨⟨rule, label⟩, ls⟩ - ⟨⟨-, hlabel⟩, hls⟩
  have hmore : Placed.LiesIn source [label] := Placed.liesIn_singleton hlabel
  have hparts : Placed.LiesIn source
      [(Rule.number, low), (Rule.number, high), (rule, label)] :=
    Placed.liesIn_cons.mpr ⟨⟨trivial, hlow⟩, Placed.liesIn_cons.mpr ⟨⟨trivial, hhigh⟩,
      Placed.liesIn_singleton ⟨trivial, hlabel⟩⟩⟩
  exact Framed.node (coverLexemes_liesIn hlow hmore .range _)
    (coverLeaves_around hlow hmore hparts .range) hls

/-- Ranges are read until no comma follows, and there is at least one. -/
theorem ranges_framed (fuel : Nat) {ls : List Lexeme} (h : Placed.LiesIn source ls) :
    Framed f source ending ending' (ranges source ending fuel ls)
      (ranges (f.around source) ending' fuel (Placed.moved f.bytes f.lines ls)) := by
  induction fuel generalizing ls with
  | zero => exact Ending.fault_framed .rangeLow ls
  | succ fuel ih =>
      apply Framed.bind (range_framed h)
      rintro ⟨first, ls⟩ - ⟨hfirst, hls⟩
      cases ls with
      | nil => exact Framed.ok ⟨Placed.liesIn_singleton hfirst, hls⟩
      | cons comma rest =>
          obtain ⟨-, hrest⟩ := Placed.liesIn_cons.mp hls
          by_cases hcomma : comma.kind = .comma
          · simp only [Placed.moved_pair, Placed.moved_cons, Placed.moved_lexeme,
              Lexeme.shift_kind, if_pos hcomma]
            apply Framed.bind (ih hrest)
            rintro ⟨more, ls⟩ - ⟨hmore, hls⟩
            exact Framed.ok (Placed.liesIn_pair.mpr ⟨Placed.liesIn_cons.mpr ⟨hfirst, hmore⟩, hls⟩)
          · simp only [Placed.moved_pair, Placed.moved_cons, Placed.moved_lexeme,
              Lexeme.shift_kind, if_neg hcomma]
            exact Framed.ok (Placed.liesIn_pair.mpr ⟨Placed.liesIn_singleton hfirst, hls⟩)

theorem ranges_ne_nil {fuel : Nat} {ls left : List Lexeme} {entries : List Node}
    (h : ranges source ending fuel ls = .ok (entries, left)) : entries ≠ [] := by
  cases fuel with
  | zero => cases h
  | succ fuel =>
      simp only [ranges, bind, Except.bind] at h
      split at h
      · cases h
      · split at h
        · split at h
          · split at h
            · cases h
            · obtain ⟨rfl, -⟩ := Prod.mk.inj (Except.ok.inj h)
              exact List.cons_ne_nil _ _
          · obtain ⟨rfl, -⟩ := Prod.mk.inj (Except.ok.inj h)
            exact List.cons_ne_nil _ _
        · obtain ⟨rfl, -⟩ := Prod.mk.inj (Except.ok.inj h)
          exact List.cons_ne_nil _ _

theorem dropNewlines_moved (ls : List Lexeme) :
    dropNewlines (Placed.moved f.bytes f.lines ls) =
      Placed.moved f.bytes f.lines (dropNewlines ls) := by
  induction ls with
  | nil => rfl
  | cons l rest ih =>
      simp only [dropNewlines, Placed.moved_cons, Placed.moved_lexeme, List.dropWhile_cons,
        Lexeme.shift_kind] at ih ⊢
      split
      · exact ih
      · rfl

theorem dropNewlines_liesIn {ls : List Lexeme} (h : Placed.LiesIn source ls) :
    Placed.LiesIn source (dropNewlines ls) :=
  fun l hl => h l ((List.dropWhile_sublist _).mem hl)

theorem property_framed {ls : List Lexeme} (h : Placed.LiesIn source ls) :
    Framed f source ending ending' (property source ending ls)
      (property (f.around source) ending' (Placed.moved f.bytes f.lines ls)) := by
  apply Framed.bind (Ending.expectOneOf_framed .propertyName _ h)
  rintro ⟨⟨keyRule, key⟩, ls⟩ - ⟨⟨-, hkey⟩, hls⟩
  apply Framed.bind (Ending.expect_framed .propertyEquals .equals hls)
  rintro ⟨_, ls⟩ - ⟨-, hls⟩
  apply Framed.bind (Ending.expectOneOf_framed .propertyValue _ hls)
  rintro ⟨⟨valueRule, value⟩, ls⟩ - ⟨⟨-, hvalue⟩, hls⟩
  have hmore : Placed.LiesIn source [value] := Placed.liesIn_singleton hvalue
  have hparts : Placed.LiesIn source [(keyRule, key), (valueRule, value)] :=
    Placed.liesIn_cons.mpr ⟨⟨trivial, hkey⟩, Placed.liesIn_singleton ⟨trivial, hvalue⟩⟩
  exact Framed.node (coverLexemes_liesIn hkey hmore .property _)
    (coverLeaves_around hkey hmore hparts .property) hls

theorem properties_framed (fuel : Nat) {ls : List Lexeme} (h : Placed.LiesIn source ls) :
    Framed f source ending ending' (properties source ending fuel ls)
      (properties (f.around source) ending' fuel (Placed.moved f.bytes f.lines ls)) := by
  induction fuel generalizing ls with
  | zero =>
      unfold properties
      rw [dropNewlines_moved]
      cases dropNewlines ls with
      | nil => exact Framed.ok Placed.liesIn_nil
      | cons l rest => exact Ending.fault_framed .propertyName (l :: rest)
  | succ fuel ih =>
      have hfront := dropNewlines_liesIn h
      unfold properties
      rw [dropNewlines_moved]
      cases hls : dropNewlines ls with
      | nil => exact Framed.ok Placed.liesIn_nil
      | cons l rest =>
          rw [hls] at hfront
          apply Framed.bind (property_framed hfront)
          rintro ⟨first, ls⟩ - ⟨hfirst, hls⟩
          have hleft := dropNewlines_liesIn hls
          simp only [Placed.moved_pair, dropNewlines_moved]
          cases hmore : dropNewlines ls with
          | nil => exact Framed.ok (Placed.liesIn_singleton hfirst)
          | cons comma rest =>
              rw [hmore] at hleft
              obtain ⟨-, hrest⟩ := Placed.liesIn_cons.mp hleft
              by_cases hcomma : comma.kind = .comma
              · simp only [Placed.moved_cons, Placed.moved_lexeme, Lexeme.shift_kind,
                  if_pos hcomma]
                exact (ih hrest).map (fun x hx => Placed.liesIn_cons.mpr ⟨hfirst, hx⟩)
                  fun _ _ => rfl
              · simp only [Placed.moved_cons, Placed.moved_lexeme, Lexeme.shift_kind,
                  if_neg hcomma]
                exact Ending.fault_framed .propertyComma (comma :: rest)

/-- The text between the braces of a block is scanned by itself, at the offset at which it stands.
-/
theorem propertiesOf_framed {block : Lexeme} (h : block.LiesIn source)
    (hblock : block.kind = .block) :
    Framed f source ending ending' (propertiesOf source block)
      (propertiesOf (f.around source) (block.shift f.bytes)) := by
  obtain ⟨first, last, hsource, hstart⟩ := h.place
  obtain ⟨rest, hrest⟩ := h.opens hblock
  have hbrace : Text.byteLength (first ++ ['{']) = block.start + 1 := by
    rw [Text.byteLength_append, hstart]
    rfl
  have hstop : block.stop + f.bytes - 1 = block.stop - 1 + f.bytes := by
    have : 0 < block.stop := by
      rw [Lexeme.stop, hrest]
      exact Nat.add_pos_right _ (Nat.add_pos_left (Char.utf8Size_pos _) _)
    omega
  have hscan := Lexeme.scan_add f.bytes (block.text.drop 1).dropLast (block.start + 1)
  simp only [propertiesOf, Lexeme.shift_text, Lexeme.shift_start, Lexeme.shift_stop, hstop,
    Nat.add_right_comm block.start f.bytes 1, hscan]
  cases hinner : Lexeme.scan (block.text.drop 1).dropLast (block.start + 1) with
  | error failure => exact Framed.error fun _ => rfl
  | ok ls =>
      have hlies : Placed.LiesIn source ls := by
        refine Lexeme.liesIn_of_scan (block.text.drop 1).dropLast (first ++ ['{'])
          (rest.drop (rest.length - 1) ++ last) ls ?_ (by rw [hbrace, hinner])
        have hends : rest.dropLast ++ rest.drop (rest.length - 1) = rest := by
          rw [List.dropLast_eq_take, List.take_append_drop]
        conv_lhs => rw [hsource, hrest, ← hends]
        simp [hrest]
      let inner : Ending := ⟨block.stop - 1, none⟩
      have hread : Framed f source inner (inner.moved f.bytes)
          (properties source inner ls.length ls)
          (properties (f.around source) (inner.moved f.bytes)
            (Placed.moved f.bytes f.lines ls).length (Placed.moved f.bytes f.lines ls)) := by
        rw [Placed.length_moved]
        exact properties_framed ls.length hlies
      exact Framed.of_moved hread

theorem named_framed {name : Lexeme} {ls : List Lexeme} (hname : name.LiesIn source)
    (h : Placed.LiesIn source ls) :
    Framed f source ending ending' (named source name ls)
      (named (f.around source) (name.shift f.bytes) (Placed.moved f.bytes f.lines ls)) := by
  have hleaf : Framed f source ending ending' (.ok (leaf source .identifier name, ls))
      (.ok (leaf (f.around source) .identifier (name.shift f.bytes),
        Placed.moved f.bytes f.lines ls)) :=
    Framed.node (leaf_liesIn hname .identifier) (leaf_around hname .identifier) h
  match ls with
  | [] => exact hleaf
  | [_] => exact hleaf
  | colon :: block :: rest =>
      obtain ⟨-, htail⟩ := Placed.liesIn_cons.mp h
      obtain ⟨hblock, hrest⟩ := Placed.liesIn_cons.mp htail
      have hmore : Placed.LiesIn source [block] := Placed.liesIn_singleton hblock
      simp only [Placed.moved_cons, Placed.moved_lexeme, named, Lexeme.shift_kind,
        Lexeme.shift_content]
      by_cases hprop : colon.kind = .colon ∧ block.kind = .block ∧ name.content = "prop"
      · rw [if_pos hprop, if_pos hprop]
        apply Framed.bind (propertiesOf_framed hblock hprop.2.1)
        intro entries _ _
        exact Framed.node (coverLexemes_liesIn hname hmore .propertyList entries)
          (coverLexemes_around hname hmore .propertyList entries) hrest
      · rw [if_neg hprop, if_neg hprop]
        split
        · exact Framed.node (coverLexemes_liesIn hname hmore .condition [])
            (coverLexemes_around hname hmore .condition []) hrest
        · exact hleaf

theorem list_framed (kind : Lexeme.Kind) (itemRule listRule : Rule) {first : Lexeme}
    {ls : List Lexeme} (hfirst : first.LiesIn source) (h : Placed.LiesIn source ls) :
    Framed f source ending ending'
      (ending.items kind ls >>= fun read =>
        .ok (ofItems source itemRule listRule first read.1, read.2))
      (ending'.items kind (Placed.moved f.bytes f.lines ls) >>= fun read =>
        .ok (ofItems (f.around source) itemRule listRule (first.shift f.bytes) read.1,
          read.2)) := by
  apply Framed.bind (Ending.items_framed kind h)
  rintro ⟨more, ls⟩ - ⟨hmore, hls⟩
  exact Framed.node (ofItems_liesIn hfirst hmore itemRule listRule)
    (ofItems_around hfirst hmore itemRule listRule) hls

theorem numeric_framed {number : Lexeme} {ls : List Lexeme} (hnumber : number.LiesIn source)
    (h : Placed.LiesIn source ls) :
    Framed f source ending ending' (numeric source ending number ls)
      (numeric (f.around source) ending' (number.shift f.bytes)
        (Placed.moved f.bytes f.lines ls)) := by
  have hhead : ((Placed.moved f.bytes f.lines ls).head?.any fun l => l.kind == .colon) =
      ls.head?.any fun l => l.kind == .colon := by
    cases ls with
    | nil => rfl
    | cons l rest => simp [Placed.moved_cons, Placed.moved_lexeme]
  unfold numeric
  rw [hhead, Placed.length_moved]
  split
  · apply Framed.bind (ranges_framed _ (Placed.liesIn_cons.mpr ⟨hnumber, h⟩))
    rintro ⟨entries, ls⟩ hread ⟨hentries, hls⟩
    obtain ⟨first, rest, rfl⟩ := List.exists_cons_of_ne_nil (ranges_ne_nil hread)
    exact Framed.node (coverNodes_liesIn hentries .rangeList)
      (coverNodes_around hentries .rangeList) hls
  · exact list_framed .number .number .numberList hnumber h

theorem argument_framed {first : Lexeme} {ls : List Lexeme} (hfirst : first.LiesIn source)
    (h : Placed.LiesIn source ls) :
    Framed f source ending ending' (argument source ending first ls)
      (argument (f.around source) ending' (first.shift f.bytes)
        (Placed.moved f.bytes f.lines ls)) := by
  unfold argument
  rw [Lexeme.shift_kind]
  cases first.kind with
  | column => exact list_framed .column .column .columnList hfirst h
  | string => exact list_framed .string .text .textList hfirst h
  | bool => exact list_framed .bool .bool .boolList hfirst h
  | number => exact numeric_framed hfirst h
  | unitLiteral => exact Framed.node (leaf_liesIn hfirst _) (leaf_around hfirst _) h
  | block => exact Framed.node (leaf_liesIn hfirst _) (leaf_around hfirst _) h
  | identifier => exact named_framed hfirst h
  | newline | pragma | semicolon | comma | colon | equals | bang =>
      exact Ending.fault_framed .argument (first :: ls)

theorem arguments_framed (fuel : Nat) {ls : List Lexeme} (h : Placed.LiesIn source ls) :
    Framed f source ending ending' (arguments source ending fuel ls)
      (arguments (f.around source) ending' fuel (Placed.moved f.bytes f.lines ls)) := by
  induction fuel generalizing ls with
  | zero =>
      cases ls with
      | nil => exact Framed.ok Placed.liesIn_nil
      | cons l rest => exact Ending.fault_framed .argument (l :: rest)
  | succ fuel ih =>
      cases ls with
      | nil => exact Framed.ok Placed.liesIn_nil
      | cons l rest =>
          obtain ⟨hl, hrest⟩ := Placed.liesIn_cons.mp h
          apply Framed.bind (argument_framed hl hrest)
          rintro ⟨first, ls⟩ - ⟨hfirst, hls⟩
          exact (ih hls).map (fun x hx => Placed.liesIn_cons.mpr ⟨hfirst, hx⟩) fun _ _ => rfl

theorem loadPragma_framed {start : Lexeme} {ls : List Lexeme} (hstart : start.LiesIn source)
    (h : Placed.LiesIn source ls) :
    Framed f source ending ending' (loadPragma source ending start ls)
      (loadPragma (f.around source) ending' (start.shift f.bytes)
        (Placed.moved f.bytes f.lines ls)) := by
  apply Framed.bind (Ending.expect_framed .loadableName .identifier h)
  rintro ⟨first, ls⟩ - ⟨hfirst, hls⟩
  apply Framed.bind (Ending.items_framed .identifier hls)
  rintro ⟨more, ls⟩ - ⟨hmore, hls⟩
  have hnames : Placed.LiesIn source (first :: more) := Placed.liesIn_cons.mpr ⟨hfirst, hmore⟩
  refine Framed.node (coverLexemes_liesIn hstart hnames .loadPragma _) ?_ hls
  have hcover := coverLexemes_around (f := f) hstart hnames .loadPragma
    ((first :: more).map (leaf source .identifier))
  rw [← leaves_around hnames] at hcover
  exact hcover

theorem versionPragma_framed {start : Lexeme} {ls : List Lexeme} (hstart : start.LiesIn source)
    (h : Placed.LiesIn source ls) :
    Framed f source ending ending' (versionPragma source ending start ls)
      (versionPragma (f.around source) ending' (start.shift f.bytes)
        (Placed.moved f.bytes f.lines ls)) := by
  apply Framed.bind (Ending.expectOneOf_framed .version _ h)
  rintro ⟨⟨rule, value⟩, ls⟩ - ⟨⟨-, hvalue⟩, hls⟩
  have hmore : Placed.LiesIn source [value] := Placed.liesIn_singleton hvalue
  have hparts : Placed.LiesIn source [(rule, value)] :=
    Placed.liesIn_singleton ⟨trivial, hvalue⟩
  exact Framed.node (coverLexemes_liesIn hstart hmore .versionPragma _)
    (coverLeaves_around hstart hmore hparts .versionPragma) hls

theorem pragma_framed {start : Lexeme} {ls : List Lexeme} (hstart : start.LiesIn source)
    (h : Placed.LiesIn source ls) :
    Framed f source ending ending' (pragma source ending start ls)
      (pragma (f.around source) ending' (start.shift f.bytes)
        (Placed.moved f.bytes f.lines ls)) := by
  apply Framed.bind (Ending.expect_framed .pragmaName .identifier h)
  rintro ⟨name, ls⟩ - ⟨hname, hls⟩
  -- What follows either kind of pragma is the same: nothing may be left of the run.
  have hend : ∀ read : Node × List Lexeme, Placed.LiesIn source read →
      Framed f source ending ending'
        (if read.2.isEmpty then .ok read.1 else .error (ending.fault .terminator read.2))
        (if (Placed.moved f.bytes f.lines read).2.isEmpty then
            .ok (Placed.moved f.bytes f.lines read).1
          else .error (ending'.fault .terminator (Placed.moved f.bytes f.lines read).2)) := by
    rintro ⟨made, ls⟩ ⟨hmade, -⟩
    cases ls with
    | nil => exact Framed.ok hmade
    | cons l rest => exact Ending.fault_framed .terminator (l :: rest)
  -- The name reads the same further along, but the tests below are stated of it where it stands.
  change Framed f source ending ending'
    (if name.content = "load-directives" then _ else if name.content = "version" then _ else _)
    (if (name.shift f.bytes).content = "load-directives" then _
      else if (name.shift f.bytes).content = "version" then _ else _)
  by_cases hload : name.content = "load-directives"
  · have hload' : (name.shift f.bytes).content = "load-directives" := hload
    rw [if_pos hload, if_pos hload']
    exact Framed.bind (loadPragma_framed hstart hls) fun read _ hread => hend read hread
  · have hload' : ¬ (name.shift f.bytes).content = "load-directives" := hload
    rw [if_neg hload, if_neg hload']
    by_cases hversion : name.content = "version"
    · have hversion' : (name.shift f.bytes).content = "version" := hversion
      rw [if_pos hversion, if_pos hversion']
      exact Framed.bind (versionPragma_framed hstart hls) fun read _ hread => hend read hread
    · have hversion' : ¬ (name.shift f.bytes).content = "version" := hversion
      rw [if_neg hversion, if_neg hversion']
      exact Framed.error fun _ => rfl

theorem command_framed {ls : List Lexeme} (h : Placed.LiesIn source ls) :
    Framed f source ending ending' (command source ending ls)
      (command (f.around source) ending' (Placed.moved f.bytes f.lines ls)) := by
  cases ls with
  | nil => exact Ending.fault_framed .directiveName []
  | cons l rest =>
      obtain ⟨hl, hrest⟩ := Placed.liesIn_cons.mp h
      simp only [Placed.moved_cons, Placed.moved_lexeme, command, Lexeme.shift_kind]
      by_cases hname : l.kind = .identifier
      · rw [if_pos hname, if_pos hname]
        exact Framed.node (leaf_liesIn hl .command) (leaf_around hl .command) hrest
      · rw [if_neg hname, if_neg hname]
        by_cases hbang : l.kind = .bang
        · rw [if_pos hbang, if_pos hbang]
          apply Framed.bind (Ending.expect_framed .customName .identifier hrest)
          rintro ⟨name, ls⟩ - ⟨hname, hls⟩
          have hmore : Placed.LiesIn source [name] := Placed.liesIn_singleton hname
          exact Framed.node (coverLexemes_liesIn hl hmore .customCommand [])
            (coverLexemes_around hl hmore .customCommand []) hls
        · rw [if_neg hbang, if_neg hbang]
          exact Ending.fault_framed .directiveName (l :: rest)

theorem directive_framed {ls : List Lexeme} (h : Placed.LiesIn source ls) :
    Framed f source ending ending' (directive source ending ls)
      (directive (f.around source) ending' (Placed.moved f.bytes f.lines ls)) := by
  apply Framed.bind (command_framed h)
  rintro ⟨name, ls⟩ - ⟨hname, hls⟩
  have harguments : Framed f source ending ending' (arguments source ending ls.length ls)
      (arguments (f.around source) ending' (Placed.moved f.bytes f.lines ls).length
        (Placed.moved f.bytes f.lines ls)) := by
    rw [Placed.length_moved]
    exact arguments_framed ls.length hls
  apply Framed.bind harguments
  intro children _ hchildren
  have hnodes : Placed.LiesIn source (name :: children) :=
    Placed.liesIn_cons.mpr ⟨hname, hchildren⟩
  exact ⟨coverNodes_liesIn hnodes .directive,
    congrArg Except.ok (coverNodes_around hnodes .directive)⟩

/-- A run is read in the same way in a frame, whatever ends it there. -/
theorem ofRun_framed (ending' : Ending) (run : Run) (h : Placed.LiesIn source run.lexemes) :
    Framed f source run.ending ending' (ofRun source run)
      (ofRun (f.around source) ⟨Placed.moved f.bytes f.lines run.lexemes, ending'⟩) := by
  obtain ⟨ls, ending⟩ := run
  cases ls with
  | nil => exact directive_framed h
  | cons l rest =>
      obtain ⟨hl, hrest⟩ := Placed.liesIn_cons.mp h
      simp only [ofRun, Placed.moved_cons, Placed.moved_lexeme, Lexeme.shift_kind]
      by_cases hpragma : l.kind = .pragma
      · rw [if_pos hpragma, if_pos hpragma]
        exact pragma_framed hl hrest
      · rw [if_neg hpragma, if_neg hpragma]
        exact directive_framed h

end RowRecipe.Node
