import RowRecipe.Proofs.Written.Spelling

/-!
Reading what was written. A written text that stands apart from what follows falls into the lexemes
of a phrase of the grammar, and the node of that phrase has the meaning of what was written.
-/

namespace RowRecipe

namespace Lexeme

/-- The offset after the last of the lexemes; without any, the one where they would start. -/
def stopOf (base : Nat) (ls : List Lexeme) : Nat := (ls.getLast?.map stop).getD base

theorem stopOf_append (base : Nat) (ls more : List Lexeme) :
    stopOf base (ls ++ more) = stopOf (stopOf base ls) more := by
  cases hmore : more.getLast? with
  | none => simp [stopOf, List.getLast?_append, hmore]
  | some l => simp [stopOf, List.getLast?_append, hmore]

/-- In front of the rest, the text falls into the lexemes, the last of which ends where it ends. -/
structure Lexes (text : List Char) (base : Nat) (ls : List Lexeme) (rest : List Char) : Prop where
  scan : Lexeme.scan (text ++ rest) base =
    (Lexeme.scan rest (base + Text.byteLength text)).map (ls ++ ·)
  stop : stopOf base ls = base + Text.byteLength text

namespace Lexes

variable {text more rest : List Char} {base : Nat} {ls others : List Lexeme}

theorem nil (base : Nat) (rest : List Char) : Lexes [] base [] rest := by
  refine ⟨?_, rfl⟩
  rw [List.nil_append, Text.byteLength, Nat.add_zero]
  cases Lexeme.scan rest base <;> rfl

theorem one {kind : Kind} (h : Pattern.longest (text ++ rest) = some (kind, text.length))
    (base : Nat) : Lexes text base [⟨kind, text, base⟩] rest := by
  refine ⟨?_, rfl⟩
  have hpos := (Pattern.longest_bounds h).1
  obtain ⟨c, tail, rfl⟩ := List.exists_cons_of_length_pos hpos
  rw [List.cons_append] at h ⊢
  rw [scan_of_found (Pattern.skip?_of_longest h) h, ← List.cons_append, List.drop_left,
    List.take_left]
  rfl

theorem sign {kind : Kind} {c : Char}
    (h : (kind, c) ∈ [(Kind.newline, '\n'), (.comma, ','), (.equals, '='), (.bang, '!')])
    (base : Nat) (rest : List Char) : Lexes [c] base [⟨kind, [c], base⟩] rest :=
  one (Pattern.longest_sign h rest) base

theorem append (h : Lexes text base ls (more ++ rest))
    (hmore : Lexes more (base + Text.byteLength text) others rest) :
    Lexes (text ++ more) base (ls ++ others) rest := by
  constructor
  · rw [List.append_assoc, h.scan, hmore.scan, Text.byteLength_append, ← Nat.add_assoc]
    cases Lexeme.scan rest (base + Text.byteLength text + Text.byteLength more) with
    | error failure => rfl
    | ok found =>
        change Except.ok (ls ++ (others ++ found)) = Except.ok (ls ++ others ++ found)
        rw [List.append_assoc]
  · rw [stopOf_append, h.stop, hmore.stop, Text.byteLength_append, Nat.add_assoc]

/-- A blank in front is passed over. -/
theorem blank (h : Lexes text (base + 1) ls rest) (hne : ls ≠ []) :
    Lexes (' ' :: text) base ls rest := by
  have hlength : base + Text.byteLength (' ' :: text) = base + 1 + Text.byteLength text := by
    rw [Text.byteLength, Nat.add_assoc]
    rfl
  have hlast := List.getLast?_eq_some_getLast hne
  constructor
  · have hskip : skip? (' ' :: (text ++ rest)) = some 1 := rfl
    rw [List.cons_append, scan_of_skip hskip, hlength]
    exact h.scan
  · rw [hlength, ← h.stop, stopOf, stopOf, hlast]
    rfl

theorem scan_eq_ok (h : Lexes text base ls []) : Lexeme.scan text base = .ok ls := by
  have hscan := h.scan
  rw [List.append_nil] at hscan
  rw [hscan]
  change Except.ok (ls ++ []) = _
  rw [List.append_nil]

end Lexes

end Lexeme

namespace Written

open Lexeme Pattern Node

/-- Whatever stands around it, the text falls into the lexemes of a phrase, and what the phrase makes
has the property. -/
def Reads {α : Type} (phrase : List Char → List Lexeme → α → Prop) (text : List Char)
    (P : α → Prop) : Prop :=
  ∀ source base rest, Apart rest →
    ∃ ls made, Lexes text base ls rest ∧ ls ≠ [] ∧ phrase source ls made ∧ P made

theorem reads_single {kind : Kind} {text : List Char}
    (h : ∀ {rest}, Apart rest → longest (text ++ rest) = some (kind, text.length)) (rule : Rule) :
    Reads (fun source => Grammar.Single source kind rule) text (IsLeaf rule text) := by
  intro source base rest hrest
  refine ⟨[⟨kind, text, base⟩], _, .one (h hrest) base, List.cons_ne_nil _ _, ⟨_, rfl, rfl, rfl⟩, ?_⟩
  exact leaf_isLeaf source rule _

/-- Parts that are read as phrases are read as a list of them when commas stand between. -/
theorem reads_separated {β : Type} {separator : List Lexeme → Prop}
    (hseparator : ∀ l : Lexeme, l.kind = .comma → separator [l])
    {phrase : List Char → Grammar.Phrase} {text : β → List Char} {P : β → Node → Prop}
    (h : ∀ x, Reads phrase (text x) (P x)) (first : β) (more : List β) :
    Reads (fun source => Grammar.Separated separator (phrase source))
      (separated ((first :: more).map text)) (List.Forall₂ P (first :: more)) := by
  induction more generalizing first with
  | nil =>
      intro source base rest hrest
      obtain ⟨ls, node, hlexes, hne, hphrase, hnode⟩ := h first source base rest hrest
      refine ⟨ls, [node], ?_, hne, .one hphrase, .cons hnode .nil⟩
      rw [List.map_singleton, separated_singleton]
      exact hlexes
  | cons second more ih =>
      intro source base rest hrest
      rw [List.map_cons, List.map_cons, separated_cons, ← List.map_cons]
      generalize hothers : separated ((second :: more).map text) = tail
      obtain ⟨ls, node, hlexes, hne, hphrase, hnode⟩ := h first source base ([','] ++ tail ++ rest)
        (apart_cons (by decide) _)
      have hcomma := Lexes.sign (show (Kind.comma, ',') ∈ _ by decide)
        (base + Text.byteLength (text first)) (tail ++ rest)
      obtain ⟨others, nodes, hmore, -, hphrases, hnodes⟩ := ih second source _ rest hrest
      rw [hothers] at hmore
      refine ⟨_, node :: nodes, hlexes.append (hcomma.append hmore), by simp [hne],
        .cons hphrase (hseparator _ rfl) hphrases, .cons hnode hnodes⟩

theorem comma_of_kind (l : Lexeme) (h : l.kind = .comma) : Grammar.Comma [l] :=
  ⟨l, rfl, h⟩

/-- The items of a list, which is the item itself if there is only one. -/
theorem reads_items {β γ : Type} (kind : Kind) (itemRule listRule : Rule)
    (hkind : (kind, itemRule, listRule) ∈ Grammar.listRules) {text : β → List Char}
    (htext : ∀ x {rest : List Char}, Apart rest →
      longest (text x ++ rest) = some (kind, (text x).length))
    {one : γ → Token} {many : List γ → Token} {value : β → γ}
    (hone : ∀ x node span, IsLeaf itemRule (text x) node → token span node = .ok (one (value x)))
    (hmany : ∀ xs nodes source span, List.Forall₂ (fun x => IsLeaf itemRule (text x)) xs nodes →
      token span (coverNodes source listRule nodes) = .ok (many (xs.map value)))
    (first : β) (more : List β) :
    Reads Grammar.Argument (separated ((first :: more).map text)) (fun node => ∀ span,
      token span node = .ok (Argument.oneOrMany one many ((first :: more).map value))) := by
  intro source base rest hrest
  obtain ⟨ls, nodes, hlexes, hne, hphrase, hnodes⟩ :=
    reads_separated comma_of_kind (fun x => reads_single (htext x) itemRule) first more
      source base rest hrest
  refine ⟨ls, _, hlexes, hne, .list hkind hphrase, fun span => ?_⟩
  exact token_itemsNode hnodes (fun x node => hone x node span) (hmany _ nodes source span hnodes)

theorem stopsAt_startsColumn_of_isNumber {text : List Char} (h : IsNumber text) (rest : List Char) :
    Text.StopsAt startsColumn (text ++ rest) := by
  cases h with
  | plain hdecimal =>
      obtain ⟨c, more, rfl, hdigit⟩ := hdecimal.head
      exact Text.stopsAt_cons (startsColumn_eq_false_of_isDigit hdigit) _
  | negative => exact Text.stopsAt_cons (by decide) _

theorem Range.reads (r : Range) :
    Reads Grammar.Range r.text fun node =>
      node.rule = .range ∧ ∀ span, numericRange span node = .ok r.meaning := by
  intro source base rest hrest
  have hlow : ∀ base, Lexes r.low.text base [⟨.number, r.low.text, base⟩]
      ([':'] ++ (r.high.text ++ (['='] ++ r.label.written)) ++ rest) := by
    intro base
    exact .one (longest_number r.low.shape (apart_cons (by decide) _)) base
  have hcolon : ∀ base, Lexes [':'] base [⟨.colon, [':'], base⟩]
      (r.high.text ++ (['='] ++ r.label.written) ++ rest) := by
    intro base
    rw [List.append_assoc]
    exact .one (longest_colon (stopsAt_startsColumn_of_isNumber r.high.shape _)) base
  have hhigh : ∀ base, Lexes r.high.text base [⟨.number, r.high.text, base⟩]
      (['='] ++ r.label.written ++ rest) := by
    intro base
    exact .one (longest_number r.high.shape (apart_cons (by decide) _)) base
  have hequals := Lexes.sign (show (Kind.equals, '=') ∈ _ by decide)
  have hlabel := Lexes.one (r.label.longest hrest)
  have hrule : r.label.rule ∈ [(Kind.number, Rule.number), (.string, .text)] := by
    cases r.label <;> simp [Label.rule]
  refine ⟨_, _, (hlow base).append ((hcolon _).append ((hhigh _).append ((hequals _ _).append
    (hlabel _)))), by simp, .intro rfl rfl rfl rfl hrule, rfl, fun span => ?_⟩
  rw [Grammar.numericRange_of_children rfl, r.low.numeral_eq_ok span (leaf_isLeaf _ _ _),
    r.high.numeral_eq_ok span (leaf_isLeaf _ _ _), r.label.unquotedText (leaf_isLeaf _ _ _)]
  rfl

theorem Property.reads (p : Property) :
    Reads Grammar.Property p.text fun node =>
      node.rule = .property ∧ ∀ span, propertyEntry span node = .ok p.entry := by
  intro source base rest hrest
  have hkey : ∀ base, Lexes p.key.written base [⟨p.key.rule.1, p.key.written, base⟩]
      (['='] ++ p.value.written ++ rest) := by
    intro base
    exact .one (p.key.longest (apart_cons (by decide) _)) base
  have hequals := Lexes.sign (show (Kind.equals, '=') ∈ _ by decide)
  have hvalue := Lexes.one (p.value.longest hrest)
  have hkeyRule : p.key.rule ∈ [(Kind.identifier, Rule.identifier), (.string, .text)] := by
    cases p.key <;> simp [Key.rule]
  have hvalueRule : p.value.rule ∈ [(Kind.number, Rule.number), (.bool, .bool), (.string, .text),
      (.identifier, .identifier)] := by
    cases p.value <;> simp [Value.rule]
  refine ⟨_, _, (hkey base).append ((hequals _ _).append (hvalue _)), by simp,
    .intro hkeyRule rfl hvalueRule, rfl, fun span => ?_⟩
  rw [Grammar.propertyEntry_of_children rfl, p.value.propertyValue_eq_ok span (leaf_isLeaf _ _ _),
    p.key.unquotedText (leaf_isLeaf _ _ _)]
  rfl

/-- A block with a word and a colon in front of it. -/
def marked (word : Name) (body : Body) : List Char :=
  word.text ++ ':' :: '{' :: (body.text ++ ['}'])

theorem Body.lexes (body : Body) (base : Nat) (rest : List Char) :
    Lexes ('{' :: (body.text ++ ['}'])) base [⟨.block, '{' :: (body.text ++ ['}']), base⟩] rest := by
  have hlongest := body.longest rest
  refine .one ?_ base
  rw [hlongest]
  simp

theorem marked_lexes (word : Name) (body : Body) (base : Nat) (rest : List Char) :
    ∃ name colon block, Lexes (marked word body) base [name, colon, block] rest ∧
      name = ⟨.identifier, word.text, base⟩ ∧ colon.kind = .colon ∧ block.kind = .block ∧
      block.text = '{' :: (body.text ++ ['}']) := by
  have hword : Lexes word.text base [⟨.identifier, word.text, base⟩]
      ([':'] ++ '{' :: (body.text ++ ['}']) ++ rest) :=
    .one (word.longest (apart_cons (by decide) _)) base
  have hcolon : ∀ base, Lexes [':'] base [⟨.colon, [':'], base⟩]
      ('{' :: (body.text ++ ['}']) ++ rest) := by
    intro base
    exact .one (longest_colon (Text.stopsAt_cons (by decide) _)) base
  exact ⟨_, _, _, hword.append ((hcolon _).append (body.lexes _ rest)), rfl, rfl, rfl, rfl⟩

def expName : Name :=
  ⟨'e', ['x', 'p'], by decide, List.all_eq_true.mp (by decide), by decide⟩

def propName : Name :=
  ⟨'p', ['r', 'o', 'p'], by decide, List.all_eq_true.mp (by decide), by decide⟩

/-- The entries between the braces of a block. -/
theorem properties_reads (entries : List Property) (source : List Char) (base : Nat) :
    ∃ ls nodes, Lexes (Body.ofProperties entries).text base ls [] ∧
      Grammar.Properties source ls nodes ∧
      List.Forall₂ (fun p node => node.rule = .property ∧
        ∀ span, propertyEntry span node = .ok (Property.entry p)) entries nodes := by
  cases entries with
  | nil => exact ⟨[], [], .nil base [], .none (List.forall_mem_nil _), .nil⟩
  | cons first more =>
      have hpadded : ∀ l : Lexeme, l.kind = .comma → Grammar.PaddedComma [l] :=
        fun l hl => ⟨[], l, [], rfl, List.forall_mem_nil _, hl, List.forall_mem_nil _⟩
      obtain ⟨ls, nodes, hlexes, -, hphrases, hnodes⟩ :=
        reads_separated hpadded Property.reads first more source base [] apart_nil
      refine ⟨ls, nodes, hlexes, ?_, hnodes⟩
      have hentries := Grammar.Properties.some (List.forall_mem_nil _) hphrases
        (.inl (List.forall_mem_nil _))
      rwa [List.nil_append, List.append_nil] at hentries

variable {source before rest : List Char}

theorem expression_reads (isMarked : Bool) (body : Body)
    (hsource : source = before ++ ((Argument.expression isMarked body).text ++ rest)) :
    ∃ ls node, Lexes (Argument.expression isMarked body).text (Text.byteLength before) ls rest ∧
      ls ≠ [] ∧ Grammar.Argument source ls node ∧
      ∀ span, token span node = .ok (Argument.expression isMarked body).token := by
  cases isMarked with
  | false =>
      refine ⟨_, _, body.lexes _ rest, List.cons_ne_nil _ _, .block rfl, fun span => ?_⟩
      exact body.token_eq_ok false span (leaf_isLeaf _ _ _)
  | true =>
      obtain ⟨name, colon, block, hlexes, hname, hcolon, hblock, -⟩ :=
        marked_lexes expName body (Text.byteLength before) rest
      have hkind : name.kind = .identifier := by rw [hname]
      have hword : name.content = "exp" := by rw [hname]; rfl
      have hstart : name.start = Text.byteLength before := by rw [hname]
      refine ⟨_, _, hlexes, List.cons_ne_nil _ _, .expression hkind hword hcolon hblock,
        fun span => ?_⟩
      -- only here is the text of the node cut out of the source
      exact body.token_eq_ok true span (cover_isLeaf hsource .condition hstart hlexes.stop [])

theorem argument_reads (a : Argument) (hsource : source = before ++ (a.text ++ rest))
    (hrest : Apart rest) :
    ∃ ls node, Lexes a.text (Text.byteLength before) ls rest ∧ ls ≠ [] ∧
      Grammar.Argument source ls node ∧ ∀ span, token span node = .ok a.token := by
  cases a with
  | columns first more =>
      exact reads_items .column .column .columnList (by decide) (fun c _ => c.longest)
        (fun c _ => c.token_eq_ok) (fun _ _ => columns_token) first more source _ rest hrest
  | texts first more =>
      exact reads_items .string .text .textList (by decide) (fun q rest _ => q.longest rest)
        (fun q _ => q.token_eq_ok) (fun _ _ => texts_token) first more source _ rest hrest
  | booleans first more =>
      exact reads_items .bool .bool .boolList (by decide) (fun b _ => b.longest)
        (fun b _ => b.token_eq_ok) (fun _ _ => booleans_token) first more source _ rest hrest
  | numbers first more =>
      exact reads_items .number .number .numberList (by decide)
        (fun n _ hrest => longest_number n.shape hrest)
        (fun n _ => n.token_eq_ok) (fun _ _ => numbers_token) first more source _ rest hrest
  | ranges first more =>
      obtain ⟨ls, nodes, hlexes, hne, hphrases, hnodes⟩ :=
        reads_separated comma_of_kind Range.reads first more source _ rest hrest
      exact ⟨ls, _, hlexes, hne, .ranges hphrases, fun span => ranges_token source span hnodes⟩
  | size m =>
      refine ⟨_, _, .one (longest_unitLiteral m.shape (m.isSuffix spellable_byteUnit) hrest) _,
        List.cons_ne_nil _ _, .quantity rfl, fun span => ?_⟩
      exact m.token_size rfl source span
  | duration m =>
      refine ⟨_, _, .one (longest_unitLiteral m.shape (m.isSuffix spellable_timeUnit) hrest) _,
        List.cons_ne_nil _ _, .quantity rfl, fun span => ?_⟩
      exact m.token_duration rfl source span
  | name n =>
      refine ⟨_, _, .one (n.longest hrest) _, List.cons_ne_nil _ _, .name rfl, fun span => ?_⟩
      exact n.token_eq_ok span (leaf_isLeaf _ _ _)
  | properties entries =>
      obtain ⟨name, colon, block, hlexes, hname, hcolon, hblock, htext⟩ :=
        marked_lexes propName (Body.ofProperties entries) (Text.byteLength before) rest
      obtain ⟨inner, nodes, hinner, hentries, hnodes⟩ :=
        properties_reads entries source (block.start + 1)
      have hkind : name.kind = .identifier := by rw [hname]
      have hword : name.content = "prop" := by rw [hname]; rfl
      have hscan : Lexeme.scan (block.text.drop 1).dropLast (block.start + 1) = .ok inner := by
        rw [htext, List.drop_one, List.tail_cons, List.dropLast_concat]
        exact hinner.scan_eq_ok
      refine ⟨_, _, hlexes, List.cons_ne_nil _ _,
        .properties hkind hword hcolon hblock hscan hentries, fun span => ?_⟩
      exact properties_token span rfl hnodes rfl
  | expression marked body => exact expression_reads marked body hsource

end Written

end RowRecipe
