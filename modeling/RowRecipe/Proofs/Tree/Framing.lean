import RowRecipe.Proofs.Lexeme.Scanning
import RowRecipe.Proofs.Source.Frame
import RowRecipe.Tree.Recipe

/-!
Reading a text inside a frame. Whatever the grammar reads from the lexemes of a text, it reads the
same from them when the text is part of a longer one: the nodes are found further along and further
down, and a fault is met at the same lexeme. The one thing that may differ is what ends the lexemes,
which only faults can tell. One relation, `Framed`, says this for all readers, and it passes along
`do` blocks; every reader of the grammar has one lemma.
-/

namespace RowRecipe

/-- The same ending further along. -/
def Ending.moved (bytes : Nat) (e : Ending) : Ending := ⟨e.offset + bytes, e.found⟩

/-- The same fault further along. -/
def GrammarFault.moved (bytes : Nat) (fault : GrammarFault) : GrammarFault :=
  ⟨fault.offset + bytes, fault.issue⟩

namespace Node

mutual

/-- The same tree further along and further down. -/
def moved (bytes lines : Nat) : Node → Node
  | ⟨rule, text, start, stop, children⟩ =>
      ⟨rule, text, start.moved bytes lines, stop.moved bytes lines, movedAll bytes lines children⟩

def movedAll (bytes lines : Nat) : List Node → List Node
  | [] => []
  | node :: rest => node.moved bytes lines :: movedAll bytes lines rest

end

theorem movedAll_eq_map (bytes lines : Nat) (nodes : List Node) :
    movedAll bytes lines nodes = nodes.map (moved bytes lines) := by
  induction nodes with
  | nil => rfl
  | cons node rest ih => rw [movedAll, ih, List.map_cons]

theorem moved_eq (bytes lines : Nat) (node : Node) :
    node.moved bytes lines = ⟨node.rule, node.text, node.start.moved bytes lines,
      node.stop.moved bytes lines, node.children.map (moved bytes lines)⟩ := by
  cases node
  rw [moved, movedAll_eq_map]

mutual

theorem moved_zero : ∀ node : Node, node.moved 0 0 = node
  | ⟨rule, text, start, stop, children⟩ => by
      rw [moved, movedAll_zero children]
      rfl

theorem movedAll_zero : ∀ nodes : List Node, movedAll 0 0 nodes = nodes
  | [] => rfl
  | node :: rest => by rw [movedAll, moved_zero node, movedAll_zero rest]

end

/-- The node starts and ends between characters of the source. -/
structure LiesIn (source : List Char) (node : Node) : Prop where
  start_isCut : Text.IsCut source node.start.offset
  end_isCut : Text.IsCut source node.endOffset

end Node

/-- What is read from a text: how it is found when the text stands further along in a longer one,
and when it lies in the text. -/
class Placed (α : Type) where
  moved : (bytes lines : Nat) → α → α
  LiesIn : List Char → α → Prop

namespace Placed

instance : Placed Lexeme := ⟨fun bytes _ l => l.shift bytes, Lexeme.LiesIn⟩

instance : Placed Node := ⟨Node.moved, Node.LiesIn⟩

instance : Placed Rule := ⟨fun _ _ rule => rule, fun _ _ => True⟩

instance {α : Type} [Placed α] : Placed (List α) :=
  ⟨fun bytes lines => List.map (moved bytes lines), fun source xs => ∀ x ∈ xs, LiesIn source x⟩

instance {α β : Type} [Placed α] [Placed β] : Placed (α × β) :=
  ⟨fun bytes lines => Prod.map (moved bytes lines) (moved bytes lines),
    fun source p => LiesIn source p.1 ∧ LiesIn source p.2⟩

variable {α β : Type} [Placed α] [Placed β] (bytes lines : Nat)

theorem moved_lexeme (l : Lexeme) : moved bytes lines l = l.shift bytes := rfl

theorem moved_node (node : Node) : moved bytes lines node = node.moved bytes lines := rfl

theorem moved_nil : moved bytes lines ([] : List α) = [] := rfl

theorem moved_cons (x : α) (xs : List α) :
    moved bytes lines (x :: xs) = moved bytes lines x :: moved bytes lines xs := rfl

theorem moved_pair (x : α) (y : β) :
    moved bytes lines (x, y) = (moved bytes lines x, moved bytes lines y) := rfl

theorem length_moved (xs : List α) : (moved bytes lines xs).length = xs.length :=
  List.length_map _

theorem liesIn_pair {source : List Char} {x : α} {y : β} :
    LiesIn source (x, y) ↔ LiesIn source x ∧ LiesIn source y := Iff.rfl

theorem liesIn_nil {source : List Char} : LiesIn source ([] : List α) :=
  List.forall_mem_nil _

theorem liesIn_cons {source : List Char} {x : α} {xs : List α} :
    LiesIn source (x :: xs) ↔ LiesIn source x ∧ LiesIn source xs :=
  List.forall_mem_cons

theorem liesIn_singleton {source : List Char} {x : α} (h : LiesIn source x) :
    LiesIn source [x] :=
  liesIn_cons.mpr ⟨h, liesIn_nil⟩

end Placed

/-- Reading in a frame agrees with reading the text by itself. What was read lies in the text and is
found in its new place; a fault is met again, and it is found in its new place if what ends the
lexemes is. -/
def Framed {α : Type} [Placed α] (f : Frame) (source : List Char) (ending ending' : Ending)
    (result result' : Except GrammarFault α) : Prop :=
  match result with
  | .ok x => Placed.LiesIn source x ∧ result' = .ok (Placed.moved f.bytes f.lines x)
  | .error fault => ∃ fault', result' = .error fault' ∧
      (ending' = ending.moved f.bytes → fault' = fault.moved f.bytes)

namespace Framed

variable {α β : Type} [Placed α] [Placed β] {f : Frame} {source : List Char}
  {ending ending' : Ending}

theorem ok {x : α} (h : Placed.LiesIn source x) :
    Framed f source ending ending' (.ok x) (.ok (Placed.moved f.bytes f.lines x)) :=
  ⟨h, rfl⟩

/-- A node was made, and lexemes are left. -/
theorem node {made made' : Node} {left : List Lexeme} (hlies : made.LiesIn source)
    (hmade : made' = made.moved f.bytes f.lines) (hleft : Placed.LiesIn source left) :
    Framed f source ending ending' (.ok (made, left))
      (.ok (made', Placed.moved f.bytes f.lines left)) := by
  subst hmade
  exact ⟨⟨hlies, hleft⟩, rfl⟩

theorem error {fault fault' : GrammarFault}
    (h : ending' = ending.moved f.bytes → fault' = fault.moved f.bytes) :
    Framed (α := α) f source ending ending' (.error fault) (.error fault') :=
  ⟨fault', rfl, h⟩

/-- Readers that agree one after another agree together. -/
theorem bind {result result' : Except GrammarFault α} {next next' : α → Except GrammarFault β}
    (h : Framed f source ending ending' result result')
    (hnext : ∀ x, result = .ok x → Placed.LiesIn source x →
      Framed f source ending ending' (next x) (next' (Placed.moved f.bytes f.lines x))) :
    Framed f source ending ending' (result >>= next) (result' >>= next') := by
  cases result with
  | ok x =>
      obtain ⟨hlies, rfl⟩ := h
      exact hnext x rfl hlies
  | error fault =>
      obtain ⟨fault', rfl, hfault⟩ := h
      exact ⟨fault', rfl, hfault⟩

theorem map {result result' : Except GrammarFault α} {g g' : α → β}
    (h : Framed f source ending ending' result result')
    (hlies : ∀ x, Placed.LiesIn source x → Placed.LiesIn source (g x))
    (hmoved : ∀ x, Placed.LiesIn source x →
      g' (Placed.moved f.bytes f.lines x) = Placed.moved f.bytes f.lines (g x)) :
    Framed f source ending ending' (result.map g) (result'.map g') := by
  cases result with
  | ok x =>
      obtain ⟨hx, rfl⟩ := h
      exact ⟨hlies x hx, congrArg Except.ok (hmoved x hx)⟩
  | error fault =>
      obtain ⟨fault', rfl, hfault⟩ := h
      exact ⟨fault', rfl, hfault⟩

/-- Inside a block the lexemes end at its brace, wherever those around it end. -/
theorem of_moved {inner : Ending} {result result' : Except GrammarFault α}
    (h : Framed f source inner (inner.moved f.bytes) result result') :
    Framed f source ending ending' result result' := by
  cases result with
  | ok x => exact h
  | error fault =>
      obtain ⟨fault', hresult, hfault⟩ := h
      exact ⟨fault', hresult, fun _ => hfault rfl⟩

end Framed

namespace Lexeme

-- Not by `rfl` alone: a rewrite under a test has to carry the instance that decides it along.
@[simp]
theorem shift_kind (bytes : Nat) (l : Lexeme) : (l.shift bytes).kind = l.kind := by
  cases l
  rfl

@[simp]
theorem shift_text (bytes : Nat) (l : Lexeme) : (l.shift bytes).text = l.text := rfl

@[simp]
theorem shift_start (bytes : Nat) (l : Lexeme) : (l.shift bytes).start = l.start + bytes := rfl

@[simp]
theorem shift_content (bytes : Nat) (l : Lexeme) : (l.shift bytes).content = l.content := rfl

@[simp]
theorem shift_stop (bytes : Nat) (l : Lexeme) : (l.shift bytes).stop = l.stop + bytes := by
  simp only [stop, shift_text, shift_start]
  exact Nat.add_right_comm _ _ _

end Lexeme

namespace Node

variable {f : Frame} {source : List Char}

theorem lastPlace_around {text : List Char} {start stop : Nat} (hstart : Text.IsCut source start)
    (hstop : Text.IsCut source stop) (hlength : Text.byteLength text ≤ stop) :
    lastPlace (f.around source) text (start + f.bytes) (stop + f.bytes) =
      (lastPlace source text start stop).moved f.bytes f.lines := by
  unfold lastPlace
  cases hlast : text.getLast? with
  | none => exact f.ofOffset_around (Or.inl hstart.le)
  | some c =>
      obtain ⟨first, hfirst⟩ := List.getLast?_eq_some_iff.mp hlast
      have hc : c.utf8Size ≤ stop := by
        rw [hfirst, Text.byteLength_append] at hlength
        simp only [Text.byteLength] at hlength
        omega
      have hle := hstop.le
      simp only [Nat.sub_add_comm hc]
      exact f.ofOffset_around (Or.inl (by omega))

theorem leaf_around {l : Lexeme} (h : l.LiesIn source) (rule : Rule) :
    leaf (f.around source) rule (l.shift f.bytes) =
      (leaf source rule l).moved f.bytes f.lines := by
  have hlength : Text.byteLength l.text ≤ l.stop := Nat.le_add_left _ _
  have hlast := lastPlace_around (f := f) h.start_isCut h.stop_isCut hlength
  simp only [leaf, Lexeme.shift_content, Lexeme.shift_start, Lexeme.shift_text, Lexeme.shift_stop,
    f.ofOffset_around (Or.inl h.start_isCut.le), hlast, moved, movedAll]

theorem leaf_liesIn {l : Lexeme} (h : l.LiesIn source) (rule : Rule) :
    (leaf source rule l).LiesIn source :=
  ⟨h.start_isCut, by
    simpa [endOffset, leaf, Lexeme.content, Lexeme.stop, Position.ofOffset] using h.stop_isCut⟩

theorem cover_around {start stop : Nat} (hstart : Text.IsCut source start)
    (hstop : Text.IsCut source stop) (rule : Rule) (children : List Node) :
    cover (f.around source) rule (start + f.bytes) (stop + f.bytes)
        (children.map (moved f.bytes f.lines)) =
      (cover source rule start stop children).moved f.bytes f.lines := by
  have hslice : Text.slice (f.around source) (start + f.bytes) (stop + f.bytes) =
      Text.slice source start stop := Text.slice_append f.before f.after hstart hstop
  have hlength : Text.byteLength (Text.slice source start stop) ≤ stop := by
    rcases Nat.le_total start stop with hle | hle
    · rw [(Text.slice_between hstart hstop hle).2]
      exact Nat.sub_le _ _
    · rw [Text.slice_of_le hle]
      exact Nat.zero_le _
  simp only [cover, hslice, f.ofOffset_around (Or.inl hstart.le),
    lastPlace_around (f := f) hstart hstop hlength, moved, movedAll_eq_map]

theorem cover_liesIn {start stop : Nat} (hstart : Text.IsCut source start)
    (hstop : Text.IsCut source stop) (rule : Rule) (children : List Node) :
    (cover source rule start stop children).LiesIn source := by
  refine ⟨hstart, ?_⟩
  simp only [endOffset, cover, Position.ofOffset, String.toList_ofList]
  rcases Nat.le_total start stop with hle | hle
  · rw [(Text.slice_between hstart hstop hle).2, Nat.add_sub_cancel' hle]
    exact hstop
  · rw [Text.slice_of_le hle]
    exact hstart

end Node

namespace Ending

variable {f : Frame} {source : List Char} {ending ending' : Ending}

/-- A fault at the front of the lexemes that are left; only the one behind the last lexeme depends
on what is there. -/
theorem fault_framed {α : Type} [Placed α] (wanted : Wanted) (ls : List Lexeme) :
    Framed (α := α) f source ending ending' (.error (ending.fault wanted ls))
      (.error (ending'.fault wanted (Placed.moved f.bytes f.lines ls))) := by
  apply Framed.error
  rintro rfl
  cases ls <;> rfl

theorem expect_framed (wanted : Wanted) (kind : Lexeme.Kind) {ls : List Lexeme}
    (h : Placed.LiesIn source ls) :
    Framed f source ending ending' (ending.expect wanted kind ls)
      (ending'.expect wanted kind (Placed.moved f.bytes f.lines ls)) := by
  cases ls with
  | nil => exact fault_framed wanted []
  | cons l rest =>
      simp only [Placed.moved_cons, Placed.moved_lexeme, expect, Lexeme.shift_kind]
      by_cases hl : l.kind = kind
      · rw [if_pos hl, if_pos hl]
        exact Framed.ok (Placed.liesIn_cons.mp h)
      · rw [if_neg hl, if_neg hl]
        exact fault_framed wanted (l :: rest)

theorem expectOneOf_framed (wanted : Wanted) (kinds : List (Lexeme.Kind × Rule))
    {ls : List Lexeme} (h : Placed.LiesIn source ls) :
    Framed f source ending ending' (ending.expectOneOf wanted kinds ls)
      (ending'.expectOneOf wanted kinds (Placed.moved f.bytes f.lines ls)) := by
  cases ls with
  | nil => exact fault_framed wanted []
  | cons l rest =>
      obtain ⟨hl, hrest⟩ := Placed.liesIn_cons.mp h
      simp only [Placed.moved_cons, Placed.moved_lexeme, expectOneOf, Lexeme.shift_kind]
      cases kinds.find? fun k => k.1 == l.kind with
      | some found => exact Framed.ok ⟨⟨trivial, hl⟩, hrest⟩
      | none => exact fault_framed wanted (l :: rest)

theorem items_framed (kind : Lexeme.Kind) {ls : List Lexeme} (h : Placed.LiesIn source ls) :
    Framed f source ending ending' (ending.items kind ls)
      (ending'.items kind (Placed.moved f.bytes f.lines ls)) := by
  fun_induction items ending kind ls with
  | case1 => exact Framed.ok (Placed.liesIn_pair.mpr ⟨Placed.liesIn_nil, Placed.liesIn_nil⟩)
  | case2 comma hcomma =>
      simp only [Placed.moved_cons, Placed.moved_nil, Placed.moved_lexeme, items,
        Lexeme.shift_kind, if_pos hcomma]
      exact fault_framed (.item kind) []
  | case3 comma hcomma l rest hl ih =>
      obtain ⟨-, h⟩ := Placed.liesIn_cons.mp h
      obtain ⟨hlies, hrest⟩ := Placed.liesIn_cons.mp h
      simp only [Placed.moved_cons, Placed.moved_lexeme, items, Lexeme.shift_kind, if_pos hcomma,
        if_pos hl]
      refine (ih hrest).map ?_ fun _ _ => rfl
      rintro ⟨more, left⟩ ⟨hmore, hleft⟩
      exact Placed.liesIn_pair.mpr ⟨Placed.liesIn_cons.mpr ⟨hlies, hmore⟩, hleft⟩
  | case4 comma hcomma l rest hl =>
      simp only [Placed.moved_cons, Placed.moved_lexeme, items, Lexeme.shift_kind, if_pos hcomma,
        if_neg hl]
      exact fault_framed (.item kind) (l :: rest)
  | case5 comma rest hcomma =>
      simp only [Placed.moved_cons, Placed.moved_lexeme]
      unfold items
      rw [Lexeme.shift_kind, if_neg hcomma]
      exact Framed.ok (Placed.liesIn_pair.mpr ⟨Placed.liesIn_nil, h⟩)

end Ending

end RowRecipe
