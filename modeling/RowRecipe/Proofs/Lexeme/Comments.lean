import RowRecipe.Proofs.Lexeme.Apart
import RowRecipe.Proofs.Lexeme.Replacing

/-!
Comments in front of newlines. With a comment in front of one of its newlines, a text falls into the same
lexemes, and those from the newline on are moved. Blocks know of no comments: a comment inside of a block
goes unnoticed as long as the block is closed by the same brace, and so does every comment that has no
quotes and no braces.
-/

namespace RowRecipe.Lexeme

/-- A comment with a blank in front of it. It ends with its line. -/
structure Comment where
  blank : Char
  note : List Char
  isSkipped_blank : isSkipped blank = true
  inline : '\n' ∉ note

namespace Comment

variable (comment : Comment)

def text : List Char := comment.blank :: '/' :: '/' :: comment.note

/-- The text with the comment put in at an offset. -/
def insert (offset : Nat) (cs : List Char) : List Char :=
  Text.takeBytes offset cs ++ (comment.text ++ Text.dropBytes offset cs)

theorem insert_append (first last : List Char) :
    comment.insert (Text.byteLength first) (first ++ last) = first ++ (comment.text ++ last) := by
  rw [insert, Text.takeBytes_byteLength_append, Text.dropBytes_byteLength_append]

theorem insert_add_append (offset : Nat) (first last : List Char) :
    comment.insert (offset + Text.byteLength first) (first ++ last) =
      first ++ comment.insert offset last := by
  rw [insert, Text.takeBytes_add_append, Text.dropBytes_add_append, List.append_assoc, insert]

theorem insert_append_of_le {offset : Nat} {first : List Char} (h : offset ≤ Text.byteLength first)
    (last : List Char) :
    comment.insert offset (first ++ last) = comment.insert offset first ++ last := by
  rw [insert, Text.takeBytes_append_of_le _ _ _ h, Text.dropBytes_append_of_le _ _ _ h, insert]
  simp only [List.append_assoc]

theorem byteLength_insert (offset : Nat) (cs : List Char) :
    Text.byteLength (comment.insert offset cs) =
      Text.byteLength cs + Text.byteLength comment.text := by
  conv_rhs => rw [← Text.takeBytes_append_dropBytes offset cs]
  simp only [insert, Text.byteLength_append]
  omega

theorem blank_ne {c : Char} (h : isSkipped c = false) : comment.blank ≠ c := by
  rintro rfl
  rw [comment.isSkipped_blank] at h
  cases h

theorem fresh_text (rest : List Char) : Fresh (comment.text ++ rest) := by
  refine Text.stopsAt_cons ?_ _
  rw [Bool.or_eq_false_iff]
  constructor
  · by_contra hcontinues
    have hblank := Pattern.isBlank_of_continuesColumn (Bool.eq_true_of_not_eq_false hcontinues)
    rw [Text.isBlank_of_isSkipped comment.isSkipped_blank] at hblank
    cases hblank
  · exact beq_eq_false_iff_ne.mpr (comment.blank_ne (by decide))

end Comment

variable {first last : List Char} {base : Nat} {l : Lexeme} {before after : List Lexeme}

theorem scan_comment_newline (h : IsComment first) (base : Nat) :
    scan (first ++ '\n' :: last) base = scan ('\n' :: last) (base + Text.byteLength first) := by
  rw [scan_comment_append h, List.takeWhile_cons_of_neg (by decide),
    List.dropWhile_cons_of_neg (by decide)]
  rfl

theorem Comment.scan_text (comment : Comment) (last : List Char) (base : Nat) :
    scan (comment.text ++ '\n' :: last) base =
      scan ('\n' :: last) (base + Text.byteLength comment.text) := by
  have hskip : skip? (comment.blank :: ('/' :: '/' :: comment.note ++ '\n' :: last)) = some 1 := by
    have hslash : comment.blank ≠ '/' := comment.blank_ne (by decide)
    simp [skip?, hslash, comment.isSkipped_blank]
  have hcomment : IsComment ('/' :: '/' :: comment.note) := ⟨comment.note, rfl, comment.inline⟩
  rw [text, List.cons_append, scan_of_skip hskip, List.drop_one, List.tail_cons,
    scan_comment_newline hcomment, Nat.add_assoc]
  rfl

/-- The lexeme stays, or moves along with what is behind a place. A newline moves if it is at the
place too. -/
inductive Moved (place distance : Nat) : Lexeme → Lexeme → Prop
  | before {l : Lexeme} (h : l.stop ≤ place) : Moved place distance l l
  | newline {l : Lexeme} (h : l.kind = .newline) : Moved place distance l (l.shift distance)
  | behind {l : Lexeme} (h : place < l.start) : Moved place distance l (l.shift distance)

namespace Moved

variable {place distance : Nat} {l' : Lexeme}

theorem same (h : Moved place distance l l') : Same l l' := by
  cases h <;> exact ⟨rfl, rfl⟩

theorem forall₂_before (h : ∀ b ∈ before, b.stop ≤ place) :
    List.Forall₂ (Moved place distance) before before :=
  List.forall₂_same.mpr fun b hb => .before (h b hb)

theorem forall₂_behind (h : ∀ a ∈ after, place < a.start) :
    List.Forall₂ (Moved place distance) after (after.map (shift distance)) := by
  rw [List.forall₂_map_right_iff]
  exact List.forall₂_same.mpr fun a ha => .behind (h a ha)

end Moved

theorem text_of_newline {cs : List Char} {ls : List Lexeme} (h : scan cs base = .ok ls) :
    ∀ l ∈ ls, l.kind = .newline → l.text = ['\n'] := by
  refine forall_of_scan (fun cs kind n start hlongest hkind => ?_) h
  obtain rfl : kind = .newline := hkind
  obtain ⟨p, hmem, hmatch⟩ := Pattern.longest_mem hlongest
  obtain rfl : p = Pattern.literal ['\n'] := by simpa [Pattern.all] using hmem
  exact Pattern.take_of_literal hmatch

/-- A comment in front of a newline moves what stands behind it. -/
theorem Comment.scan_insert (comment : Comment)
    (h : scan (first ++ '\n' :: last) base = .ok (before ++ l :: after))
    (hl : l.start = base + Text.byteLength first) :
    scan (first ++ (comment.text ++ '\n' :: last)) base =
      .ok (before ++ (l :: after).map (shift (Text.byteLength comment.text))) := by
  have hfresh : Fresh ('\n' :: last) := Text.stopsAt_cons (by decide) last
  have hends : ∀ cs start, IsComment cs → scan (cs ++ (comment.text ++ '\n' :: last)) start =
      scan (comment.text ++ '\n' :: last) (start + Text.byteLength cs) := by
    rintro _ start ⟨note, rfl, hnote⟩
    have hlonger : IsComment ('/' :: '/' :: note ++ comment.text) := by
      refine ⟨note ++ comment.text, rfl, fun hmem => ?_⟩
      have hblank : comment.blank ≠ '\n' := comment.blank_ne (by decide)
      rcases List.mem_append.mp hmem with hmem | hmem
      · exact hnote hmem
      · simp [text, hblank.symm, comment.inline] at hmem
    rw [← List.append_assoc, scan_comment_newline hlonger, comment.scan_text,
      Text.byteLength_append, Nat.add_assoc]
  obtain ⟨hscan, hscan'⟩ := scan_replace hfresh (comment.fresh_text _) (fun _ => hends) h hl
  rw [hscan', comment.scan_text, scan_add, hscan]
  rfl

/-- With a comment in front of a newline, the lexemes of a text stay or move. -/
theorem Comment.moved_insert (comment : Comment) {cs : List Char} {ls : List Lexeme}
    (h : scan cs base = .ok ls) (hl : l ∈ ls) (hkind : l.kind = .newline) :
    ∃ ls', scan (comment.insert (l.start - base) cs) base = .ok ls' ∧
      List.Forall₂ (Moved l.start (Text.byteLength comment.text)) ls ls' := by
  have htext := text_of_newline h l hl hkind
  have hordered := (scan_ordered cs base ls h).2
  obtain ⟨before, after, rfl⟩ := List.append_of_mem hl
  obtain ⟨first, last, rfl, hstart⟩ := exists_place_of_scan h
  rw [htext, List.singleton_append] at h
  obtain ⟨-, hbehind, hbefore⟩ := List.pairwise_append.mp hordered
  have hlength : l.stop = l.start + 1 := by
    rw [stop, htext]
    rfl
  have hscan := comment.scan_insert h hstart
  rw [← comment.insert_append, ← List.singleton_append, ← htext] at hscan
  have hplace : l.start - base = Text.byteLength first := by omega
  refine ⟨_, by rw [hplace]; exact hscan, List.rel_append ?_ (.cons (.newline hkind) ?_)⟩
  · exact Moved.forall₂_before fun b hb => hbefore b hb l List.mem_cons_self
  · apply Moved.forall₂_behind
    intro a ha
    have hle := List.rel_of_pairwise_cons hbehind ha
    omega

namespace Block

/-- No quote and no brace. -/
def IsPlain (c : Char) : Prop := isQuote c = false ∧ c ≠ '{' ∧ c ≠ '}'

instance (c : Char) : Decidable (IsPlain c) := inferInstanceAs (Decidable (_ ∧ _))

/-- If a section is open, it was opened by a quote. -/
def State.Proper (s : State) : Prop := ∀ q ∈ s.quote, isQuote q.1 = true

theorem State.Proper.step {s : State} (h : s.Proper) (c : Char) : (s.step c).Proper := by
  obtain ⟨depth, quote⟩ := s
  rcases quote with _ | ⟨q, escaped⟩
  · simp only [State.step]
    split
    · rename_i hquote
      rintro _ ⟨⟩
      exact hquote
    · split
      · exact h
      · split <;> exact h
  · have hq : isQuote q = true := h (q, escaped) rfl
    cases escaped <;> simp only [State.step]
    · split
      · rintro _ ⟨⟩
        exact hq
      · split
        · rintro _ ⟨⟩
        · exact h
    · rintro _ ⟨⟩
      exact hq

/-- After the newline behind it, a plain character makes no difference: it opens and closes nothing,
and what a backslash protects is over by then. -/
theorem State.step_plain {s : State} (h : s.Proper) {c : Char} (hc : IsPlain c) :
    (s.step c).depth = s.depth ∧ (s.step c).step '\n' = s.step '\n' := by
  obtain ⟨hquote, hopen, hclose⟩ := hc
  obtain ⟨depth, quote⟩ := s
  rcases quote with _ | ⟨q, escaped⟩
  · simp [State.step, hquote, hopen, hclose]
  · have hq : isQuote q = true := h (q, escaped) rfl
    have hcq : c ≠ q := by
      rintro rfl
      rw [hq] at hquote
      cases hquote
    have hnewline : '\n' ≠ q := by
      rintro rfl
      cases hq
    cases escaped with
    | true => simp [State.step, hnewline]
    | false =>
        by_cases hbackslash : c = '\\'
        · simp [State.step, hbackslash, hnewline]
        · simp [State.step, hbackslash, hcq, hnewline]

variable {s : State} {first note last : List Char} {n : Nat}

theorem scan_plain (h : s.Proper) (hopen : s.depth ≠ 0) (hnote : ∀ c ∈ note, IsPlain c)
    (last : List Char) :
    scan s (note ++ '\n' :: last) = (scan s ('\n' :: last)).map (· + note.length) := by
  induction note generalizing s with
  | nil => simp
  | cons c note ih =>
      obtain ⟨hc, hmore⟩ := List.forall_mem_cons.mp hnote
      obtain ⟨hdepth, hstep⟩ := State.step_plain h hc
      have hopen' : (s.step c).depth ≠ 0 := hdepth ▸ hopen
      have hsame : scan (s.step c) ('\n' :: last) = scan s ('\n' :: last) := by
        rw [scan, scan, hstep]
      rw [List.cons_append, scan_cons hopen', ih (h.step c) hopen' hmore, hsame, Option.map_map]
      rfl

theorem scan_insert_plain (h : s.Proper) (hopen : s.depth ≠ 0) (hnote : ∀ c ∈ note, IsPlain c)
    (hscan : scan s (first ++ '\n' :: last) = some n) (hn : first.length < n) :
    scan s (first ++ (note ++ '\n' :: last)) = some (n + note.length) := by
  induction first generalizing s n with
  | nil => rw [List.nil_append, scan_plain h hopen hnote, ← List.nil_append (_ :: _), hscan]; rfl
  | cons c first ih =>
      rw [List.cons_append] at hscan
      rw [List.cons_append, scan_cons_eq_some]
      obtain ⟨-, rfl⟩ | ⟨hopen', m, hm, rfl⟩ := scan_cons_eq_some.mp hscan
      · exact absurd hn (by simp)
      · exact .inr ⟨hopen', m + note.length,
          ih (h.step c) hopen' hm (Nat.lt_of_succ_lt_succ hn), Nat.add_right_comm m 1 _⟩

/-- A block stays closed where it was when a plain text is put in front of a newline in it. -/
theorem length?_insert_plain (hnote : ∀ c ∈ note, IsPlain c)
    (h : length? (first ++ '\n' :: last) = some n) (hn : first.length < n) :
    length? (first ++ (note ++ '\n' :: last)) = some (n + note.length) := by
  obtain ⟨rest, m, heq, hm, rfl⟩ := eq_cons_of_length? h
  cases first with
  | nil => exact absurd (List.cons.inj heq).1 (by decide)
  | cons c first =>
      obtain ⟨rfl, rfl⟩ := List.cons.inj heq
      have hproper : State.Proper ⟨1, none⟩ := by
        rintro _ ⟨⟩
      rw [List.cons_append, length?, scan_insert_plain hproper Nat.one_ne_zero hnote hm
        (Nat.lt_of_succ_lt_succ hn), Option.map_some, Nat.add_right_comm]

end Block

/-- No block counts what the comment says: the blocks around the place are closed where they were. -/
def Comment.Unnoticed (comment : Comment) (place : Nat) (ls : List Lexeme) : Prop :=
  ∀ block ∈ ls, block.kind = .block → block.start < place → place < block.stop →
    Block.length? (comment.insert (place - block.start) block.text) =
      some (comment.insert (place - block.start) block.text).length

namespace Comment

variable {cs : List Char} {ls : List Lexeme} {comment : Comment}

/-- No block is around a newline that is a lexeme of the same text. -/
theorem unnoticed_of_mem (h : scan cs base = .ok ls) (hl : l ∈ ls) (hkind : l.kind = .newline) :
    comment.Unnoticed l.start ls := by
  intro block hblock hblockKind hstart hstop
  have hordered := (scan_ordered cs base ls h).2
  obtain ⟨before, after, rfl⟩ := List.append_of_mem hblock
  obtain ⟨-, hbehind, hbefore⟩ := List.pairwise_append.mp hordered
  rcases List.mem_append.mp hl with hmem | hmem
  · have hle := hbefore l hmem block List.mem_cons_self
    have hlength : l.stop = l.start + Text.byteLength l.text := rfl
    omega
  · rcases List.mem_cons.mp hmem with rfl | hmem
    · rw [hkind] at hblockKind
      cases hblockKind
    · have hle := List.rel_of_pairwise_cons hbehind hmem
      omega

theorem isPlain_text (h : ∀ c ∈ comment.note, Block.IsPlain c) :
    ∀ c ∈ comment.text, Block.IsPlain c := by
  have hblank : Block.IsPlain comment.blank := by
    refine ⟨?_, comment.blank_ne (by decide), comment.blank_ne (by decide)⟩
    rw [Block.isQuote, Bool.or_eq_false_iff, beq_eq_false_iff_ne, beq_eq_false_iff_ne]
    exact ⟨comment.blank_ne (by decide), comment.blank_ne (by decide)⟩
  have hslash : Block.IsPlain '/' := by decide
  exact List.forall_mem_cons.mpr ⟨hblank, List.forall_mem_cons.mpr ⟨hslash,
    List.forall_mem_cons.mpr ⟨hslash, h⟩⟩⟩

/-- A comment without quotes and braces goes unnoticed in front of any newline. -/
theorem unnoticed_of_plain (h : scan (first ++ '\n' :: last) 0 = .ok ls)
    (hplain : ∀ c ∈ comment.note, Block.IsPlain c) :
    comment.Unnoticed (Text.byteLength first) ls := by
  intro block hblock hkind hstart hstop
  have hlength := length?_of_block h block hblock hkind
  obtain ⟨before, after, rfl⟩ := List.append_of_mem hblock
  obtain ⟨front, rest, hsource, hfront⟩ := exists_place_of_scan h
  have hend : block.stop = block.start + Text.byteLength block.text := rfl
  -- the newline stands inside of the block
  obtain ⟨inside, rfl⟩ := Text.exists_append_of_le hsource.symm (by omega)
  rw [List.append_assoc] at hsource
  have hinside := List.append_cancel_left hsource
  rw [Text.byteLength_append] at hstop ⊢
  obtain ⟨tail, htail⟩ := Text.exists_append_of_le hinside (by omega)
  rw [htail, List.append_assoc] at hinside
  have hnewline := List.append_cancel_left hinside
  cases tail with
  | nil =>
      rw [htail, List.append_nil] at hend
      omega
  | cons c tail =>
      obtain ⟨rfl, -⟩ := List.cons.inj hnewline
      have hplace : Text.byteLength front + Text.byteLength inside - block.start =
          Text.byteLength inside := by
        omega
      have hcount : inside.length < block.text.length := by
        rw [htail, List.length_append, List.length_cons]
        omega
      rw [hplace, htail, comment.insert_append]
      rw [htail] at hlength hcount
      rw [Block.length?_insert_plain (isPlain_text hplain) hlength hcount]
      refine congrArg some ?_
      simp only [List.length_append]
      omega

end Comment

end RowRecipe.Lexeme
