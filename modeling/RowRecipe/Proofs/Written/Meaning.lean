import RowRecipe.Proofs.Lexeme.Apart
import RowRecipe.Proofs.Outcome
import RowRecipe.Proofs.Quantity.Units
import RowRecipe.Proofs.SymbolTable.Decoding
import RowRecipe.Proofs.SymbolTable.Refusals
import RowRecipe.Proofs.Written.Basic

/-!
What nodes of written texts mean. The token of a node takes away what was only written around its
value: colons, quotes and braces, and white space, of which a word has none.
-/

namespace RowRecipe.Written

open Lexeme Node Pattern

/-- The node is made by the rule and has the text. -/
def IsLeaf (rule : Rule) (text : List Char) (node : Node) : Prop :=
  node.rule = rule ∧ node.text = String.ofList text

/-- The kind of lexeme that a label is, and the rule of its node. -/
def Label.rule : Label → Kind × Rule
  | .number _ _ => (.number, .number)
  | .quoted _ => (.string, .text)

def Key.rule : Key → Kind × Rule
  | .name _ => (.identifier, .identifier)
  | .quoted _ => (.string, .text)

def Value.rule : Value → Kind × Rule
  | .number _ => (.number, .number)
  | .boolean _ => (.bool, .bool)
  | .quoted _ => (.string, .text)
  | .name _ => (.identifier, .identifier)

variable {rule : Rule} {node : Node}

/-- The node over a text that stands in the source. -/
theorem cover_isLeaf {source before text rest : List Char} (hsource : source = before ++ (text ++ rest))
    (rule : Rule) {start stop : Nat} (hstart : start = Text.byteLength before)
    (hstop : stop = Text.byteLength before + Text.byteLength text) (children : List Node) :
    IsLeaf rule text (cover source rule start stop children) := by
  have hslice : Text.slice source start stop = text := by
    rw [hstop, hstart, hsource, Text.slice, Text.dropBytes_byteLength_append,
      Nat.add_sub_cancel_left, Text.takeBytes_byteLength_append]
  exact ⟨rfl, congrArg String.ofList hslice⟩

theorem leaf_isLeaf (source : List Char) (rule : Rule) (l : Lexeme) :
    IsLeaf rule l.text (leaf source rule l) :=
  ⟨rfl, rfl⟩

theorem IsLeaf.toList {text : List Char} (h : IsLeaf rule text node) : node.text.toList = text := by
  rw [h.2, String.toList_ofList]

theorem Name.isName (n : Name) : IsName n.text := ⟨n.first, n.more, rfl, n.starts, n.continues⟩

theorem Name.trim (n : Name) : Text.trim n.text = n.text :=
  Text.trim_of_forall n.isName.not_blank

theorem Name.trimmed_text (n : Name) (h : IsLeaf rule n.text node) :
    Text.trimmed node.text = n.content := by
  rw [Text.trimmed, h.toList, n.trim]
  rfl

theorem unquoted_of_notQuote {c : Char} {rest : List Char} (htrim : Text.trim (c :: rest) = c :: rest)
    (hc : Block.isQuote c = false) : unquoted (c :: rest) = c :: rest := by
  have hne : (decide (c = '\x27') || decide (c = '"')) = false := by
    simpa [Block.isQuote] using hc
  rw [unquoted, htrim]
  simp only [hne, Bool.false_and, if_neg Bool.false_ne_true]

theorem Name.unquotedText (n : Name) (h : IsLeaf rule n.text node) :
    node.unquotedText = n.content := by
  have hfirst : Block.isQuote n.first = false := by
    by_contra hquote
    have honly := opensOnly_startsName n.starts .string (by simpa [opens] using hquote)
    simp at honly
  rw [Node.unquotedText, h.toList, Name.text, unquoted_of_notQuote n.trim hfirst]
  rfl

theorem Column.columnName (c : Column) (h : IsLeaf rule c.text node) : node.columnName = c.name := by
  have hcontinues : ∀ d ∈ c.first :: c.more, continuesColumn d = true :=
    List.forall_mem_cons.mpr ⟨continuesColumn_of_startsColumn c.starts, c.continues⟩
  have htrim : Text.trim c.text = c.text :=
    Text.trim_of_forall (List.forall_mem_cons.mpr
      ⟨by decide, fun d hd => isBlank_of_continuesColumn (hcontinues d hd)⟩)
  have hcolon : (c.first == ':') = false := by
    rw [beq_eq_false_iff_ne]
    intro hcolon
    have hstarts := c.starts
    rw [hcolon] at hstarts
    cases hstarts
  rw [Node.columnName, h.toList, htrim, Column.text, List.dropWhile_cons_of_pos rfl,
    List.dropWhile_cons_of_neg (by rw [hcolon]; decide)]
  rfl

theorem Quoted.trim (q : Quoted) : Text.trim q.text = q.text := by
  have hblank : Text.isBlank q.quote = false := by
    rcases Block.isQuote_iff.mp q.isQuote with h | h
    · rw [h]
      decide
    · rw [h]
      decide
  refine Text.trim_eq_self (Text.stopsAt_cons hblank _) ?_
  rw [Quoted.text, List.reverse_cons, List.reverse_append]
  exact Text.stopsAt_cons hblank _

theorem Quoted.unquotedText (q : Quoted) (h : IsLeaf rule q.text node) :
    node.unquotedText = q.content := by
  have hquote : (decide (q.quote = '\x27') || decide (q.quote = '"')) = true := by
    simpa [Block.isQuote] using q.isQuote
  have hlast : (q.payload ++ [q.quote]).getLast? = some q.quote := List.getLast?_concat
  rw [Node.unquotedText, h.toList, unquoted, q.trim, Quoted.text]
  simp only [hquote, hlast, BEq.rfl, Bool.and_self, if_true, List.dropLast_concat]
  rfl

theorem Boolean.boolValue (b : Boolean) (h : IsLeaf rule b.text node) :
    node.boolValue = b.value := by
  have hletters := Text.isAlpha_of_sameIgnoringCase (isAlpha_boolName b.value) b.spells
  have htrim : Text.trim b.text = b.text :=
    Text.trim_of_forall fun c hc => Text.isBlank_of_isAlpha (hletters c hc)
  have hspells : (boolName b.value).toList.map Char.toLower = b.text.map Char.toLower :=
    beq_iff_eq.mp b.spells
  rw [Node.boolValue, h.toList, htrim, Text.sameIgnoringCase, ← hspells]
  cases b.value <;> decide

theorem Number.numeral_eq_ok (n : Number) (span : Span) (h : IsLeaf rule n.text node) :
    Node.numeral span node = .ok n.numeral := by
  have htext : node.text = n.numeral.text := by
    rw [h.2, Number.text, String.ofList_toList]
  rw [Node.numeral, htext, Numeral.parse?_text]

theorem unquotedText_of_isNumber {text : List Char} (hshape : IsNumber text)
    (h : IsLeaf rule text node) : node.unquotedText = String.ofList text := by
  obtain ⟨c, more, rfl, hc⟩ : ∃ c more, text = c :: more ∧ Block.isQuote c = false := by
    cases hshape with
    | plain hdecimal =>
        obtain ⟨c, more, rfl, hdigit⟩ := hdecimal.head
        refine ⟨c, more, rfl, ?_⟩
        by_contra hquote
        have honly := opensOnly_isDigit hdigit .string (by simpa [opens] using hquote)
        simp at honly
    | negative => exact ⟨'-', _, rfl, by decide⟩
  rw [Node.unquotedText, h.toList, unquoted_of_notQuote (Text.trim_of_forall hshape.not_blank) hc]

theorem Label.unquotedText (label : Label) (h : IsLeaf rule label.written node) :
    node.unquotedText = label.content := by
  cases label with
  | number text hshape => exact unquotedText_of_isNumber hshape h
  | quoted q => exact q.unquotedText h

theorem Key.unquotedText (key : Key) (h : IsLeaf rule key.written node) :
    node.unquotedText = key.content := by
  cases key with
  | name n => exact n.unquotedText h
  | quoted q => exact q.unquotedText h

theorem Value.propertyValue_eq_ok (v : Value) (span : Span) (h : IsLeaf v.rule.2 v.written node) :
    propertyValue span node = .ok v.token := by
  cases v with
  | number n =>
      have hrule : node.rule = .number := h.1
      rw [propertyValue, hrule]
      change (Node.numeral span node).map Token.numeric = _
      rw [n.numeral_eq_ok span h]
      rfl
  | boolean b =>
      have hrule : node.rule = .bool := h.1
      rw [propertyValue, hrule]
      exact congrArg (fun value => Except.ok (Token.bool value)) (b.boolValue h)
  | quoted q =>
      have hrule : node.rule = .text := h.1
      rw [propertyValue, hrule]
      exact congrArg (fun content => Except.ok (Token.text content)) (q.unquotedText h)
  | name n =>
      have hrule : node.rule = .identifier := h.1
      rw [propertyValue, hrule]
      exact congrArg (fun content => Except.ok (Token.text content)) (n.unquotedText h)

section Quantities

variable {U : Type} [UnitFamily U] {l : Lexeme}

theorem Measure.isSuffix (hU : Spellable U) (m : Measure U) : IsSuffix m.suffix := by
  refine ⟨?_, Text.isAlpha_of_sameIgnoringCase (hU.letters m.unit) m.spells⟩
  intro hnil
  have hspells := beq_iff_eq.mp m.spells
  rw [hnil, List.map_nil, List.map_eq_nil_iff] at hspells
  exact hU.nonempty m.unit hspells

/-- A suffix names the unit, of whatever family, that the symbol names which it spells. -/
theorem Measure.named?_suffix {V : Type} [UnitFamily V] (hU : Spellable U) (m : Measure U) :
    (UnitFamily.named? m.suffix : Option V) =
      UnitFamily.named? (UnitFamily.symbol m.unit).toList := by
  have hsuffix : Text.trim m.suffix = m.suffix :=
    Text.trim_of_forall fun c hc => Text.isBlank_of_isAlpha ((m.isSuffix hU).letters c hc)
  rw [UnitFamily.named?, UnitFamily.named?, hsuffix, hU.trim_symbol]
  simp only [Text.sameIgnoringCase, beq_iff_eq.mp m.spells]

theorem Measure.quantity_eq_ok (hU : Spellable U) (m : Measure U) (htext : l.text = m.text)
    (source : List Char) (span : Span) (rule : Rule) :
    Node.quantity span (leaf source rule l) = .ok m.quantity := by
  have hnamed := (m.named?_suffix hU (V := U)).trans (hU.named m.unit)
  obtain ⟨value, hvalue, hread⟩ :=
    Grammar.quantity_of_named source span htext m.shape (m.isSuffix hU) hnamed rule
  obtain rfl := Option.some.inj (hvalue.symm.trans m.reads)
  rw [hread, Lexeme.content, htext]
  rfl

theorem unitRule_of_measure (hU : Spellable U) (m : Measure U) :
    unitRule m.text = if (UnitFamily.named? (UnitFamily.symbol m.unit).toList :
      Option TimeUnit).isSome then .timeDuration else .byteSize := by
  rw [unitRule, Measure.text, Grammar.dropWhile_literal m.shape (m.isSuffix hU),
    m.named?_suffix hU]

theorem Measure.token_size (m : Measure ByteUnit) (htext : l.text = m.text) (source : List Char)
    (span : Span) : token span (leaf source (unitRule l.text) l) = .ok (.byteSize m.quantity) := by
  have hnone : ∀ u : ByteUnit,
      (UnitFamily.named? (UnitFamily.symbol u).toList : Option TimeUnit) = none := by
    intro u
    cases u <;> decide
  have hrule : unitRule l.text = .byteSize := by
    rw [htext, unitRule_of_measure spellable_byteUnit, hnone]
    rfl
  have hread : token span (leaf source .byteSize l) =
      (Node.quantity span (leaf source .byteSize l)).map .byteSize := rfl
  rw [hrule, hread, m.quantity_eq_ok spellable_byteUnit htext]
  rfl

theorem Measure.token_duration (m : Measure TimeUnit) (htext : l.text = m.text)
    (source : List Char) (span : Span) :
    token span (leaf source (unitRule l.text) l) = .ok (.timeDuration m.quantity) := by
  have hrule : unitRule l.text = .timeDuration := by
    rw [htext, unitRule_of_measure spellable_timeUnit, spellable_timeUnit.named]
    rfl
  have hread : token span (leaf source .timeDuration l) =
      (Node.quantity span (leaf source .timeDuration l)).map .timeDuration := rfl
  rw [hrule, hread, m.quantity_eq_ok spellable_timeUnit htext]
  rfl

end Quantities

section Lists

variable {β γ : Type} {R : β → Node → Prop} {xs : List β} {parent : Node} {nodes : List Node}

theorem childrenBy_eq (h : List.Forall₂ R xs nodes) (hchildren : parent.children = nodes)
    (hrule : ∀ x n, R x n → n.rule = rule) : parent.childrenBy rule = nodes := by
  rw [← hchildren]
  apply Grammar.childrenBy_of_forall
  rw [hchildren]
  intro child hchild
  clear hchildren
  induction h with
  | nil => cases hchild
  | cons hfirst _ ih =>
      rcases List.mem_cons.mp hchild with rfl | hchild
      · exact hrule _ _ hfirst
      · exact ih hchild

theorem map_childrenBy {f : Node → γ} {value : β → γ} (h : List.Forall₂ R xs nodes)
    (hchildren : parent.children = nodes) (hrule : ∀ x n, R x n → n.rule = rule)
    (hvalue : ∀ x n, R x n → f n = value x) :
    (parent.childrenBy rule).map f = xs.map value := by
  rw [childrenBy_eq h hchildren hrule]
  clear hchildren
  induction h with
  | nil => rfl
  | cons hfirst _ ih => rw [List.map_cons, List.map_cons, hvalue _ _ hfirst, ih]

theorem mapM_childrenBy {ε : Type} {f : Node → Except ε γ} {value : β → γ}
    (h : List.Forall₂ R xs nodes) (hchildren : parent.children = nodes)
    (hrule : ∀ x n, R x n → n.rule = rule)
    (hvalue : ∀ x n, R x n → f n = .ok (value x)) :
    (parent.childrenBy rule).mapM f = .ok (xs.map value) := by
  rw [childrenBy_eq h hchildren hrule, Outcome.mapM_eq_ok, List.forall₂_map_right_iff]
  exact (h.imp hvalue).flip

/-- A single item means itself, and several mean a list. -/
theorem token_itemsNode {one : γ → Token} {many : List γ → Token} {value : β → γ} {source : List Char}
    {listRule : Rule} {span : Span} (h : List.Forall₂ R xs nodes)
    (hone : ∀ x n, R x n → token span n = .ok (one (value x)))
    (hmany : token span (coverNodes source listRule nodes) = .ok (many (xs.map value))) :
    token span (Grammar.itemsNode source listRule nodes) =
      .ok (Argument.oneOrMany one many (xs.map value)) := by
  cases h with
  | nil => exact hmany
  | cons hfirst hmore =>
      cases hmore with
      | nil => exact hone _ _ hfirst
      | cons => exact hmany

end Lists

section Tokens

variable {nodes : List Node}

theorem Column.token_eq_ok (c : Column) (span : Span) (h : IsLeaf .column c.text node) :
    token span node = .ok (.columnName c.name) := by
  rw [token, h.1]
  exact congrArg (fun name => Except.ok (Token.columnName name)) (c.columnName h)

theorem columns_token {cs : List Column} (source : List Char) (span : Span)
    (h : List.Forall₂ (fun c => IsLeaf .column (Column.text c)) cs nodes) :
    token span (coverNodes source .columnList nodes) =
      .ok (.columnNameList (cs.map Column.name)) := by
  have hnames : ((coverNodes source .columnList nodes).childrenBy .column).map columnName =
      cs.map Column.name :=
    map_childrenBy h rfl (fun _ _ hn => hn.1) fun c _ hn => c.columnName hn
  rw [← hnames]
  rfl

theorem Quoted.token_eq_ok (q : Quoted) (span : Span) (h : IsLeaf .text q.text node) :
    token span node = .ok (.text q.content) := by
  rw [token, h.1]
  exact congrArg (fun content => Except.ok (Token.text content)) (q.unquotedText h)

theorem texts_token {qs : List Quoted} (source : List Char) (span : Span)
    (h : List.Forall₂ (fun q => IsLeaf .text (Quoted.text q)) qs nodes) :
    token span (coverNodes source .textList nodes) = .ok (.textList (qs.map Quoted.content)) := by
  have hcontents : ((coverNodes source .textList nodes).childrenBy .text).map unquotedText =
      qs.map Quoted.content :=
    map_childrenBy h rfl (fun _ _ hn => hn.1) fun q _ hn => q.unquotedText hn
  rw [← hcontents]
  rfl

theorem Boolean.token_eq_ok (b : Boolean) (span : Span) (h : IsLeaf .bool b.text node) :
    token span node = .ok (.bool b.value) := by
  rw [token, h.1]
  exact congrArg (fun value => Except.ok (Token.bool value)) (b.boolValue h)

theorem booleans_token {bs : List Boolean} (source : List Char) (span : Span)
    (h : List.Forall₂ (fun b => IsLeaf .bool (Boolean.text b)) bs nodes) :
    token span (coverNodes source .boolList nodes) = .ok (.boolList (bs.map Boolean.value)) := by
  have hvalues : ((coverNodes source .boolList nodes).childrenBy .bool).map boolValue =
      bs.map Boolean.value :=
    map_childrenBy h rfl (fun _ _ hn => hn.1) fun b _ hn => b.boolValue hn
  rw [← hvalues]
  rfl

theorem Number.token_eq_ok (n : Number) (span : Span) (h : IsLeaf .number n.text node) :
    token span node = .ok (.numeric n.numeral) := by
  rw [token, h.1]
  change (Node.numeral span node).map Token.numeric = _
  rw [n.numeral_eq_ok span h]
  rfl

theorem numbers_token {ns : List Number} (source : List Char) (span : Span)
    (h : List.Forall₂ (fun n => IsLeaf .number (Number.text n)) ns nodes) :
    token span (coverNodes source .numberList nodes) =
      .ok (.numericList (ns.map Number.numeral)) := by
  have hnumerals : ((coverNodes source .numberList nodes).childrenBy .number).mapM
      (Node.numeral span) = .ok (ns.map Number.numeral) :=
    mapM_childrenBy h rfl (fun _ _ hn => hn.1) fun n _ hn => n.numeral_eq_ok span hn
  change (((coverNodes source .numberList nodes).childrenBy .number).mapM
    (Node.numeral span)).map Token.numericList = _
  rw [hnumerals]
  rfl

theorem ranges_token {rs : List Range} (source : List Char) (span : Span)
    (h : List.Forall₂ (fun r n => n.rule = .range ∧
      ∀ span, numericRange span n = .ok (Range.meaning r)) rs nodes) :
    token span (coverNodes source .rangeList nodes) = .ok (.ranges (rs.map Range.meaning)) := by
  have hranges : ((coverNodes source .rangeList nodes).childrenBy .range).mapM
      (numericRange span) = .ok (rs.map Range.meaning) :=
    mapM_childrenBy h rfl (fun _ _ hn => hn.1) fun _ _ hn => hn.2 span
  change (((coverNodes source .rangeList nodes).childrenBy .range).mapM
    (numericRange span)).map Token.ranges = _
  rw [hranges]
  rfl

theorem properties_token {ps : List Property} (span : Span) (hrule : node.rule = .propertyList)
    (h : List.Forall₂ (fun p n => n.rule = .property ∧
      ∀ span, propertyEntry span n = .ok (Property.entry p)) ps nodes)
    (hchildren : node.children = nodes) :
    token span node = .ok (.properties (Entries.ofList (ps.map Property.entry))) := by
  have hentries : (node.childrenBy .property).mapM (propertyEntry span) =
      .ok (ps.map Property.entry) :=
    mapM_childrenBy h hchildren (fun _ _ hn => hn.1) fun _ _ hn => hn.2 span
  rw [token, hrule]
  change ((node.childrenBy .property).mapM (propertyEntry span)).map
    (fun entries => Token.properties (Entries.ofList entries)) = _
  rw [hentries]
  rfl

theorem Name.token_eq_ok (n : Name) (span : Span) (h : IsLeaf .identifier n.text node) :
    token span node = .ok (.identifier n.content) := by
  rw [token, h.1]
  change Except.ok (Token.identifier (String.ofList (Text.trim node.text.toList))) = _
  rw [h.toList, n.trim]
  rfl

theorem Name.token_command (n : Name) (span : Span) (h : IsLeaf .command n.text node) :
    token span node = .ok (.directiveName n.content) :=
  Node.token_command n.isName h.1 h.toList span

theorem Name.token_customCommand (n : Name) (span : Span)
    (h : IsLeaf .customCommand ('!' :: n.text) node) :
    token span node = .ok (.directiveName n.content) := by
  have hnone : ∀ c ∈ ([] : List Char), Text.isBlank c = true := List.forall_mem_nil _
  exact Node.token_customCommand hnone n.isName h.1 h.toList span

theorem Body.token_eq_ok (body : Body) (marked : Bool) (span : Span)
    (h : IsLeaf .condition (Argument.expression marked body).text node) :
    token span node = .ok (.expression (String.ofList (Text.trim body.text))) := by
  rw [token, h.1]
  change Except.ok (Token.expression (String.ofList (expressionBody
    (Text.trim node.text.toList)))) = _
  rw [h.toList]
  cases marked with
  | false =>
      have hbrace : ∀ d ∈ ['}'], Text.isBlank d = false := List.forall_mem_singleton.mpr (by decide)
      have htrim : Text.trim ('{' :: (body.text ++ ['}'])) = '{' :: (body.text ++ ['}']) :=
        Text.trim_of_ends (by decide) body.text (List.cons_ne_nil '}' []) hbrace
      rw [Argument.text, htrim, expressionBody_braces]
  | true =>
      have hnone : ∀ c ∈ ([] : List Char), Text.isBlank c = true := List.forall_mem_nil _
      have hmarked := expressionBody_marked hnone hnone body.text
      exact congrArg (fun body => Except.ok (Token.expression (String.ofList body))) hmarked

end Tokens

end RowRecipe.Written
