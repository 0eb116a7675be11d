import RowRecipe.Proofs.Lexeme.Comments
import RowRecipe.Proofs.SymbolTable.Layout

/-!
Comments and tables. A comment may be put in front of any newline between the directives of a recipe,
and the table stays the same, but for the places of its groups. In front of a newline between the
properties of a list, the same holds as long as the block around them does not count quotes and braces
that the comment has in it. An apostrophe is enough to leave the block open.
-/

namespace RowRecipe

namespace Text

variable {first last : List Char} {start stop : Nat}

/-- A part in front of a place stays when what is behind the place is replaced. -/
theorem slice_append_of_le (hstart : IsCut (first ++ last) start) (hstop : IsCut (first ++ last) stop)
    (hle : start ≤ stop) (h : stop ≤ byteLength first) (last' : List Char) :
    slice (first ++ last') start stop = slice (first ++ last) start stop := by
  have hcut : ∀ {offset}, IsCut (first ++ last) offset → offset ≤ byteLength first →
      IsCut first offset := by
    rintro _ ⟨before, after, hwhole, rfl⟩ hle
    obtain ⟨middle, hmiddle⟩ := exists_append_of_le hwhole.symm hle
    exact ⟨before, middle, hmiddle, rfl⟩
  have hslice : ∀ last, slice (first ++ last) start stop = slice first start stop :=
    fun last => slice_append [] last (hcut hstart (hle.trans h)) (hcut hstop h)
  rw [hslice, hslice]

theorem slice_add_append (first last : List Char) (start stop : Nat) :
    slice (first ++ last) (start + byteLength first) (stop + byteLength first) =
      slice last start stop := by
  rw [slice, dropBytes_add_append, Nat.add_sub_add_right, slice]

/-- A part behind a place moves along with what is put in there. -/
theorem slice_append_of_ge (first inserted last : List Char) (h : byteLength first ≤ start)
    (h' : byteLength first ≤ stop) :
    slice (first ++ (inserted ++ last)) (start + byteLength inserted) (stop + byteLength inserted) =
      slice (first ++ last) start stop := by
  obtain ⟨m, rfl⟩ := Nat.exists_eq_add_of_le' h
  obtain ⟨n, rfl⟩ := Nat.exists_eq_add_of_le' h'
  rw [← List.append_assoc, Nat.add_assoc, Nat.add_assoc, ← byteLength_append, slice_add_append,
    slice_add_append]

/-- The character at a place is in every part around the place. -/
theorem mem_slice {c : Char} (hstart : IsCut (first ++ c :: last) start)
    (hstop : IsCut (first ++ c :: last) stop) (h : start ≤ byteLength first)
    (h' : byteLength first < stop) : c ∈ slice (first ++ c :: last) start stop := by
  have hplace : IsCut (first ++ c :: last) (byteLength first) := ⟨first, c :: last, rfl, rfl⟩
  obtain ⟨n, hn⟩ : ∃ n, stop - byteLength first = n + 1 := ⟨stop - byteLength first - 1, by omega⟩
  rw [← slice_append_slice hstart hplace hstop h (Nat.le_of_lt h')]
  apply List.mem_append_right
  rw [slice, dropBytes_byteLength_append, hn]
  exact List.mem_cons_self

end Text

namespace Lexeme

section Headings

variable {first last inserted : List Char} {l next l' next' : Lexeme} {ls ls' more : List Lexeme}

/-- The gap behind a mark is on one side of a newline, so it stays the same when something is put in
front of the newline. -/
theorem gap_moved (haligned : Aligned (first ++ '\n' :: last) (l :: next :: more))
    (hkind : l.kind ≠ .newline) (hkind' : next.kind ≠ .newline)
    (hl : Moved (Text.byteLength first) (Text.byteLength inserted) l l')
    (hnext : Moved (Text.byteLength first) (Text.byteLength inserted) next next') :
    Text.slice (first ++ (inserted ++ '\n' :: last)) l'.stop next'.start =
      Text.slice (first ++ '\n' :: last) l.stop next.start := by
  have hlies := haligned.laid.lie l List.mem_cons_self
  have hlies' := haligned.laid.lie next (List.mem_cons_of_mem _ List.mem_cons_self)
  have hle : l.stop ≤ next.start := List.rel_of_pairwise_cons haligned.laid.ordered List.mem_cons_self
  have hstop : (l.shift (Text.byteLength inserted)).stop = l.stop + Text.byteLength inserted :=
    Nat.add_right_comm _ _ _
  cases hl with
  | newline hnewline => exact absurd hnewline hkind
  | before hbefore =>
      cases hnext with
      | newline hnewline => exact absurd hnewline hkind'
      | before hbefore' =>
          have hstart := start_lt_stop hlies'
          exact Text.slice_append_of_le hlies.stop_isCut hlies'.start_isCut hle (by omega) _
      | behind hbehind =>
          have hnewline := Text.mem_slice hlies.stop_isCut hlies'.start_isCut hbefore hbehind
          cases haligned.gap _ hnewline
  | behind hbehind =>
      have hstart := start_lt_stop hlies
      cases hnext with
      | newline hnewline => exact absurd hnewline hkind'
      | before hbefore =>
          have hstart' := start_lt_stop hlies'
          omega
      | behind hbehind' =>
          rw [hstop]
          exact Text.slice_append_of_ge first inserted _ (by omega) (by omega)

theorem heading_moved (haligned : Aligned (first ++ '\n' :: last) ls) (hinner : Inner ls)
    (h : Recast (Moved (Text.byteLength first) (Text.byteLength inserted)) ls ls') :
    Option.Rel (fun heading heading' => heading.text = heading'.text)
      (heading? (first ++ '\n' :: last) ls)
      (heading? (first ++ (inserted ++ '\n' :: last)) ls') := by
  have hnewline : ∀ l ∈ ls, l.kind ≠ .newline := by
    intro l hl hkind
    have hterminator := hinner l hl
    rw [hkind] at hterminator
    cases hterminator
  cases h with
  | nil => exact .none
  | @cons l l' rest rest' hl hrest =>
      rw [heading?, heading?, hl.same.kind]
      split
      · exact .some hl.same.content
      · split
        · cases rest with
          | nil =>
              cases hrest
              exact .none
          | cons next more =>
              obtain ⟨next', more', rfl, hnext⟩ :
                  ∃ next' more', rest' = next' :: more' ∧
                    Moved (Text.byteLength first) (Text.byteLength inserted) next next' := by
                cases hrest with
                | cons hnext => exact ⟨_, _, rfl, hnext⟩
                | properties hnext => exact ⟨_, _, rfl, hnext⟩
              have hgap := gap_moved haligned (hnewline l (by simp)) (hnewline next (by simp)) hl hnext
              refine .some ?_
              simp only [Heading.text, hgap, hnext.same.text]
        · exact .none
  | properties hname _ h h' =>
      rw [heading?, heading?, if_pos h.isIdentifier, if_pos h'.isIdentifier]
      exact .some hname.same.content

/-- Directives are called the same when something is put in front of a newline. -/
theorem headings_moved (hscan : scan (first ++ '\n' :: last) 0 = .ok ls)
    (h : Recast (Moved (Text.byteLength first) (Text.byteLength inserted)) ls ls') :
    (headings (first ++ '\n' :: last) ls).map Heading.text =
      (headings (first ++ (inserted ++ '\n' :: last)) ls').map Heading.text := by
  have hruns := (List.forall₂_and_left _ _).mpr
    ⟨fun run hrun => And.intro (aligned_of_mem_runs hscan run hrun).1 (inner_of_mem_runs ls run hrun),
      h.runs fun _ _ hl => hl.same.kind⟩
  refine Outcome.map_eq_map_of_forall₂ (List.rel_filterMap (fun run run' hrun => ?_) hruns)
  obtain ⟨⟨haligned, hinner⟩, hmoved⟩ := hrun
  exact heading_moved haligned hinner hmoved

end Headings

/-- The newlines between the directives of a text, and those between the properties of a list. -/
inductive EndsLine (ls : List Lexeme) (l : Lexeme) : Prop
  | recipe (h : l ∈ ls) (hkind : l.kind = .newline)
  | properties {name colon block : Lexeme} {inner : List Lexeme} (h : [name, colon, block] <:+: ls)
      (hlists : ListsProperties name colon block inner) (hl : l ∈ inner) (hkind : l.kind = .newline)

section EndsLine

variable {source : List Char} {ls inner : List Lexeme} {l block : Lexeme} {comment : Comment}

theorem EndsLine.kind (h : EndsLine ls l) : l.kind = .newline := by
  cases h <;> assumption

theorem EndsLine.place (hscan : scan source 0 = .ok ls) (h : EndsLine ls l) :
    ∃ first last, source = first ++ '\n' :: last ∧ l.start = Text.byteLength first := by
  have hlaid := laid_of_scan_zero hscan
  obtain ⟨hlies, htext⟩ : l.LiesIn source ∧ l.text = ['\n'] := by
    cases h with
    | recipe hl hkind => exact ⟨hlaid.lie l hl, text_of_newline hscan l hl hkind⟩
    | @properties name colon block inner h hlists hl hkind =>
        have hmem : block ∈ [name, colon, block] := by simp
        obtain ⟨hinside, -⟩ := laid_inner (hlaid.lie block (h.subset hmem)) hlists.isBlock hlists.scanned
        exact ⟨hinside.lie l hl, text_of_newline hlists.scanned l hl hkind⟩
  obtain ⟨first, last, hplace, hstart⟩ := hlies.place
  exact ⟨first, last, by rw [hplace, htext, List.append_assoc]; rfl, hstart⟩

/-- With a comment in front of a newline in it, a block still lists the properties that it did. -/
theorem ListsProperties.with_comment {name colon : Lexeme} {text : List Char} (comment : Comment)
    (h : ListsProperties name colon block inner) (htext : block.text = ['{'] ++ (text ++ ['}']))
    (hl : l ∈ inner) (hkind : l.kind = .newline) :
    ∃ inner', ListsProperties name colon
      ⟨.block, comment.insert (l.start - block.start) block.text, block.start⟩ inner' ∧
      List.Forall₂ Same inner inner' := by
  have hdropped : ∀ text : List Char, ((['{'] ++ (text ++ ['}'])).drop 1).dropLast = text := by
    intro text
    rw [List.singleton_append, List.drop_one, List.tail_cons, List.dropLast_concat]
  have hscan := h.scanned
  rw [htext, hdropped] at hscan
  obtain ⟨hlow, hhigh⟩ := (scan_ordered _ _ _ hscan).1 l hl
  have hlength : l.stop = l.start + Text.byteLength l.text := rfl
  have hplace : l.start - block.start =
      l.start - (block.start + 1) + Text.byteLength ['{'] := by
    change _ = _ + 1
    omega
  obtain ⟨inner', hinner', hmoved⟩ := comment.moved_insert hscan hl hkind
  refine ⟨inner', ⟨h.isIdentifier, h.word, h.isColon, rfl, ?_⟩, hmoved.imp fun _ _ h => h.same⟩
  rw [htext, hplace, comment.insert_add_append, comment.insert_append_of_le (by omega), hdropped]
  exact hinner'

/-- A comment inside of a block that goes unnoticed there moves what stands behind the block. -/
theorem scan_insert_block {before after : List Lexeme} {place : Nat}
    (hscan : scan source 0 = .ok (before ++ block :: after)) (hkind : block.kind = .block)
    (hlow : block.start ≤ place) (hhigh : place ≤ block.stop)
    (hcloses : Block.length? (comment.insert (place - block.start) block.text) =
      some (comment.insert (place - block.start) block.text).length) :
    scan (comment.insert place source) 0 =
      .ok (before ++ ⟨.block, comment.insert (place - block.start) block.text, block.start⟩ ::
        after.map (shift (Text.byteLength comment.text))) := by
  obtain ⟨first, last, rfl, hstart⟩ := exists_place_of_scan hscan
  have hlength : block.stop = block.start + Text.byteLength block.text := rfl
  have hplace : place = place - block.start + Text.byteLength first := by omega
  have hinsert : comment.insert place (first ++ (block.text ++ last)) =
      first ++ (comment.insert (place - block.start) block.text ++ last) := by
    conv_lhs => rw [hplace, comment.insert_add_append, comment.insert_append_of_le (by omega)]
  rw [hinsert]
  exact scan_replace_block hcloses hkind (comment.byteLength_insert _ _) hscan hstart

/-- With an unnoticed comment between the properties of a list, the lexemes around the block stay or
move. -/
theorem recast_properties {name colon : Lexeme} {before after : List Lexeme}
    (hscan : scan source 0 = .ok (before ++ [name, colon] ++ block :: after))
    (hlists : ListsProperties name colon block inner) (hl : l ∈ inner) (hkind : l.kind = .newline)
    (hunnoticed : comment.Unnoticed l.start (before ++ [name, colon] ++ block :: after)) :
    ∃ ls', scan (comment.insert l.start source) 0 = .ok ls' ∧
      Recast (Moved l.start (Text.byteLength comment.text))
        (before ++ [name, colon] ++ block :: after) ls' := by
  have hlaid := laid_of_scan_zero hscan
  have hmem : block ∈ before ++ [name, colon] ++ block :: after := by simp
  -- the newline is inside of the block, the other lexemes are on one side of it
  obtain ⟨hinside, hbounds⟩ := laid_inner (hlaid.lie block hmem) hlists.isBlock hlists.scanned
  obtain ⟨-, hhigh⟩ := hbounds l hl
  have hlow := ((scan_ordered _ _ _ hlists.scanned).1 l hl).1
  have hlength := start_lt_stop (hinside.lie l hl)
  obtain ⟨-, hbehind, hfront⟩ := List.pairwise_append.mp hlaid.ordered
  have hbefore : ∀ b ∈ before ++ [name, colon], b.stop ≤ l.start := by
    intro b hb
    have hle := hfront b hb block List.mem_cons_self
    omega
  have hafter : ∀ a ∈ after, l.start < a.start := by
    intro a ha
    have hle := List.rel_of_pairwise_cons hbehind ha
    omega
  obtain ⟨text, htext⟩ := (scan_spelled hscan block hmem).block hlists.isBlock
  obtain ⟨inner', hlists', hsame⟩ := hlists.with_comment comment htext hl hkind
  have hcloses := hunnoticed block hmem hlists.isBlock (by omega) (by omega)
  refine ⟨_, scan_insert_block hscan hlists.isBlock (by omega) (by omega) hcloses, ?_⟩
  obtain ⟨hfirst, hword⟩ := List.forall_mem_append.mp hbefore
  rw [List.append_assoc, List.append_assoc]
  exact (Recast.of_forall₂ (Moved.forall₂_before hfirst)).append
    (.properties (.before (hword name (by simp))) (.before (hword colon (by simp))) hlists hlists'
      hsame (.of_forall₂ (Moved.forall₂_behind hafter)))

/-- With a comment in front of a newline, the lexemes of a recipe stay or move, but for the block that
the newline may be in. -/
theorem EndsLine.recast (hscan : scan source 0 = .ok ls) (h : EndsLine ls l)
    (hunnoticed : comment.Unnoticed l.start ls) :
    ∃ ls', scan (comment.insert l.start source) 0 = .ok ls' ∧
      Recast (Moved l.start (Text.byteLength comment.text)) ls ls' := by
  cases h with
  | recipe hl hkind =>
      obtain ⟨ls', hscan', hmoved⟩ := comment.moved_insert hscan hl hkind
      exact ⟨ls', hscan', .of_forall₂ hmoved⟩
  | @properties name colon block inner h hlists hl hkind =>
      obtain ⟨before, after, rfl⟩ := h
      have hparts : before ++ [name, colon, block] ++ after =
          before ++ [name, colon] ++ block :: after := by simp
      rw [hparts] at hscan hunnoticed ⊢
      exact recast_properties hscan hlists hl hkind hunnoticed

end EndsLine

end Lexeme

namespace SymbolTable

open Node Lexeme

/-- The two differ in nothing but the places of their groups. -/
structure SameButSpans (table table' : SymbolTable) : Prop where
  loadables : table.loadables = table'.loadables
  version : table.version = table'.version
  tokens : table.groups.map TokenGroup.tokens = table'.groups.map TokenGroup.tokens

variable {source source' : String} {table : SymbolTable} {first last inserted : List Char}
  {ls ls' : List Lexeme} {l : Lexeme}

theorem names_eq_headings (hscan : scan source.toList 0 = .ok ls)
    (h : compile source = .ok table) :
    table.groups.map TokenGroup.directiveName? =
      ((headings source.toList ls).map Heading.text).map some := by
  rw [compile_names hscan h, List.map_map]
  rfl

/-- What is put in front of a newline makes no difference, if the lexemes of the recipe stay or move and
only blocks of properties have other texts. -/
theorem compile_recast (hsource : source.toList = first ++ '\n' :: last)
    (hsource' : source'.toList = first ++ (inserted ++ '\n' :: last))
    (hscan : scan source.toList 0 = .ok ls) (hscan' : scan source'.toList 0 = .ok ls')
    (hrecast : Recast (Moved (Text.byteLength first) (Text.byteLength inserted)) ls ls')
    (h : compile source = .ok table) :
    ∃ table', compile source' = .ok table' ∧ SameButSpans table table' := by
  obtain ⟨tree, hparse, -⟩ := exists_tree_of_compile h
  obtain ⟨tree', hparse', hitems⟩ :=
    Grammar.parse_recast hscan hscan' (hrecast.mono fun _ _ hl => hl.same) hparse
  have hagree := compile_items hparse hparse' hitems
  rw [h] at hagree
  obtain ⟨table', h', hsame⟩ := hagree.exists_of_ok
  have hheadings : (headings source.toList ls).map Heading.text =
      (headings source'.toList ls').map Heading.text := by
    rw [hsource] at hscan
    rw [hsource, hsource', headings_moved hscan hrecast]
  have hnames := names_eq_headings hscan h
  have hnames' := names_eq_headings hscan' h'
  refine ⟨table', h', hsame.loadables, hsame.version, ?_⟩
  rw [tokens_of_names hnames, tokens_of_names hnames', hheadings, hsame.arguments]

/-- In front of a newline of a recipe that compiles, a comment makes no difference but for the places of
the groups, as long as no block around the newline notices it. No block is around a newline between the
directives; a block around a newline between properties does not notice a comment without quotes and
braces. -/
theorem compile_comment (comment : Comment) (h : compile source = .ok table)
    (hscan : scan source.toList 0 = .ok ls) (hl : EndsLine ls l) :
    (l ∈ ls ∨ (∀ c ∈ comment.note, Block.IsPlain c) → comment.Unnoticed l.start ls) ∧
      (comment.Unnoticed l.start ls → ∃ table',
        compile (String.ofList (comment.insert l.start source.toList)) = .ok table' ∧
          SameButSpans table table') := by
  obtain ⟨first, last, hsource, hstart⟩ := hl.place hscan
  constructor
  · rintro (hmem | hplain)
    · exact comment.unnoticed_of_mem hscan hmem hl.kind
    · rw [hsource] at hscan
      rw [hstart]
      exact comment.unnoticed_of_plain hscan hplain
  · intro hunnoticed
    obtain ⟨ls', hscan', hrecast⟩ := hl.recast hscan hunnoticed
    have hsource' : (String.ofList (comment.insert l.start source.toList)).toList =
        first ++ (comment.text ++ '\n' :: last) := by
      rw [String.toList_ofList, hsource, hstart, comment.insert_append]
    rw [hstart] at hrecast
    refine compile_recast hsource hsource' hscan ?_ hrecast h
    rw [String.toList_ofList]
    exact hscan'

/-- A comment in a list of properties and a comment behind the list. -/
theorem compile_comment_note :
    let inside : Lexeme := ⟨.newline, ['\n'], 11⟩
    let behind : Lexeme := ⟨.newline, ['\n'], 13⟩
    ∃ table ls, compile "x prop:\x7ba=b\n\x7d\n" = .ok table ∧
      scan "x prop:\x7ba=b\n\x7d\n".toList 0 = .ok ls ∧ EndsLine ls inside ∧ EndsLine ls behind ∧
      (∃ table', compile "x prop:\x7ba=b // note\n\x7d\n" = .ok table' ∧ SameButSpans table table') ∧
      ∃ table', compile "x prop:\x7ba=b\n\x7d // note\n" = .ok table' ∧ SameButSpans table table' := by
  intro inside behind
  let comment : Comment := ⟨' ', " note".toList, rfl, by decide⟩
  let name : Lexeme := ⟨.identifier, "prop".toList, 2⟩
  let colon : Lexeme := ⟨.colon, [':'], 6⟩
  let block : Lexeme := ⟨.block, "\x7ba=b\n\x7d".toList, 7⟩
  let inner : List Lexeme :=
    [⟨.identifier, ['a'], 8⟩, ⟨.equals, ['='], 9⟩, ⟨.identifier, ['b'], 10⟩, inside]
  let ls : List Lexeme := [⟨.identifier, ['x'], 0⟩, name, colon, block, behind]
  obtain ⟨table, htable⟩ : ∃ table, compile "x prop:\x7ba=b\n\x7d\n" = .ok table := ⟨_, by cbv⟩
  have hscan : scan "x prop:\x7ba=b\n\x7d\n".toList 0 = .ok ls := by cbv
  have hlists : ListsProperties name colon block inner := ⟨rfl, by decide, rfl, rfl, by cbv⟩
  have hinside : EndsLine ls inside :=
    .properties ⟨[⟨.identifier, ['x'], 0⟩], [behind], rfl⟩ hlists (by simp [inner]) rfl
  have hbehind : EndsLine ls behind := .recipe (by simp [ls]) rfl
  have hplain : ∀ c ∈ comment.note, Block.IsPlain c := by
    simp [comment, Block.IsPlain, Block.isQuote]
  refine ⟨table, ls, htable, hscan, hinside, hbehind, ?_, ?_⟩
  · have hsame := compile_comment comment htable hscan hinside
    exact hsame.2 (hsame.1 (.inr hplain))
  · have hsame := compile_comment comment htable hscan hbehind
    exact hsame.2 (hsame.1 (.inl (by simp [ls])))

/-- An apostrophe in a comment leaves the block around it open. -/
theorem compile_comment_apostrophe :
    ¬ ∀ (source : String) (table : SymbolTable) (ls : List Lexeme) (l : Lexeme) (comment : Comment),
      compile source = .ok table → scan source.toList 0 = .ok ls → EndsLine ls l →
      ∃ table', compile (String.ofList (comment.insert l.start source.toList)) = .ok table' ∧
        SameButSpans table table' := by
  intro h
  let comment : Comment := ⟨' ', " don\x27t".toList, rfl, by decide⟩
  let inside : Lexeme := ⟨.newline, ['\n'], 11⟩
  let name : Lexeme := ⟨.identifier, "prop".toList, 2⟩
  let colon : Lexeme := ⟨.colon, [':'], 6⟩
  let block : Lexeme := ⟨.block, "\x7ba=b\n\x7d".toList, 7⟩
  let inner : List Lexeme :=
    [⟨.identifier, ['a'], 8⟩, ⟨.equals, ['='], 9⟩, ⟨.identifier, ['b'], 10⟩, inside]
  let ls : List Lexeme := [⟨.identifier, ['x'], 0⟩, name, colon, block]
  obtain ⟨table, htable⟩ : ∃ table, compile "x prop:\x7ba=b\n\x7d" = .ok table := ⟨_, by cbv⟩
  have hscan : scan "x prop:\x7ba=b\n\x7d".toList 0 = .ok ls := by cbv
  have hlists : ListsProperties name colon block inner := ⟨rfl, by decide, rfl, rfl, by cbv⟩
  have hinside : EndsLine ls inside :=
    .properties ⟨[⟨.identifier, ['x'], 0⟩], [], rfl⟩ hlists (by simp [inner]) rfl
  obtain ⟨table', htable', -⟩ := h _ table ls inside comment htable hscan hinside
  have hopen : ∃ e, compile "x prop:\x7ba=b // don\x27t\n\x7d" = .error e := ⟨_, by cbv⟩
  obtain ⟨e, he⟩ := hopen
  cases he.symm.trans htable'

end SymbolTable

end RowRecipe
