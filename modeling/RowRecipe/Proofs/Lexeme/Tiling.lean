import RowRecipe.Proofs.Lexeme.Kinds
import RowRecipe.Proofs.Lexeme.Replacing

/-!
A scan as a tiling of the text by longest match. From where the last lexeme ended, spaces and a comment
are passed over, and the longest text of any kind is the next lexeme, until the text ends or nothing
starts where it goes on. The lexemes are determined by this, and so is the place of a failure.
-/

namespace RowRecipe.Lexeme

variable {base stop : Nat} {gap cs rest : List Char} {l : Lexeme} {ls : List Lexeme}

/-- A space, a tab, a carriage return or a form feed. -/
def IsSpace (c : Char) : Prop := c ∈ [' ', '\t', '\r', '\x0c']

/-- The text is at its end or in front of a newline. -/
def AtLineEnd (rest : List Char) : Prop := rest = [] ∨ ∃ next, rest = '\n' :: next

/-- Nothing but spaces, and maybe a comment that takes the rest of its line. -/
inductive Gap : List Char → List Char → Prop
  | spaces {gap rest : List Char} (h : ∀ c ∈ gap, IsSpace c) : Gap gap rest
  | comment {spaces note rest : List Char} (hspaces : ∀ c ∈ spaces, IsSpace c)
      (hnote : '\n' ∉ note) (hend : AtLineEnd rest) : Gap (spaces ++ '/' :: '/' :: note) rest

theorem isSkipped_iff {c : Char} : isSkipped c = true ↔ IsSpace c := by
  simp only [isSkipped, IsSpace, Bool.or_eq_true, beq_iff_eq, List.mem_cons, List.not_mem_nil,
    or_false, or_assoc]
  rw [← Char.toNat_inj (c := c) (d := '\x0c')]
  rfl

theorem gap_nil (rest : List Char) : Gap [] rest := .spaces (List.forall_mem_nil _)

theorem Gap.cons {c : Char} (hc : IsSpace c) (h : Gap gap rest) : Gap (c :: gap) rest := by
  cases h with
  | spaces h => exact .spaces (List.forall_mem_cons.mpr ⟨hc, h⟩)
  | comment hspaces hnote hend =>
      rw [← List.cons_append]
      exact .comment (List.forall_mem_cons.mpr ⟨hc, hspaces⟩) hnote hend

/-- There is no gap at the end of a line. -/
theorem Gap.eq_nil (h : Gap gap rest) (hend : AtLineEnd (gap ++ rest)) : gap = [] := by
  cases gap with
  | nil => rfl
  | cons c more =>
      exfalso
      rcases hend with hnil | ⟨next, heq⟩
      · cases hnil
      · obtain rfl : c = '\n' := (List.cons.inj heq).1
        generalize hgap : '\n' :: more = gap at h
        cases h with
        | spaces h =>
            have hspace := h '\n' (by rw [← hgap]; exact List.mem_cons_self)
            revert hspace
            simp [IsSpace]
        | @comment spaces note _ hspaces =>
            cases spaces with
            | nil => cases hgap
            | cons c spaces =>
                have hspace := hspaces c List.mem_cons_self
                rw [← (List.cons.inj hgap).1] at hspace
                revert hspace
                simp [IsSpace]

theorem skip?_space {c : Char} (hc : IsSpace c) (rest : List Char) : skip? (c :: rest) = some 1 := by
  have hslash : c ≠ '/' := by
    rintro rfl
    revert hc
    simp [IsSpace]
  simp [skip?, hslash, isSkipped_iff.mpr hc]

theorem scan_spaces (h : ∀ c ∈ gap, IsSpace c) (rest : List Char) (base : Nat) :
    scan (gap ++ rest) base = scan rest (base + Text.byteLength gap) := by
  induction gap generalizing base with
  | nil => rfl
  | cons c more ih =>
      obtain ⟨hc, hmore⟩ := List.forall_mem_cons.mp h
      rw [List.cons_append, scan_of_skip (skip?_space hc _), List.drop_one, List.tail_cons, ih hmore,
        Nat.add_assoc, ← Text.byteLength_append]
      rfl

theorem scan_gap (h : Gap gap rest) (base : Nat) :
    scan (gap ++ rest) base = scan rest (base + Text.byteLength gap) := by
  cases h with
  | spaces h => exact scan_spaces h rest base
  | @comment spaces note _ hspaces hnote hend =>
      have hline : rest.takeWhile (· != '\n') = [] ∧ rest.dropWhile (· != '\n') = rest := by
        rcases hend with rfl | ⟨next, rfl⟩
        · exact ⟨rfl, rfl⟩
        · exact ⟨rfl, rfl⟩
      rw [List.append_assoc, scan_spaces hspaces, scan_comment_append ⟨note, rfl, hnote⟩, hline.1,
        hline.2, Text.byteLength_append, Nat.add_assoc, Text.byteLength, Nat.add_zero]

/-- What is passed over in one step is a space or a comment. -/
theorem skip?_cases {n : Nat} (h : skip? cs = some n) :
    (∃ c rest, cs = c :: rest ∧ IsSpace c ∧ n = 1) ∨
      ∃ note rest, cs = '/' :: '/' :: (note ++ rest) ∧ '\n' ∉ note ∧ AtLineEnd rest ∧
        n = note.length + 2 := by
  unfold skip? at h
  split at h
  · rename_i line
    obtain rfl := Option.some.inj h
    refine .inr ⟨line.takeWhile (· != '\n'), line.dropWhile (· != '\n'), ?_, ?_, ?_,
      Nat.add_comm _ _⟩
    · rw [List.takeWhile_append_dropWhile]
    · intro hmem
      exact absurd (List.mem_takeWhile_imp hmem) (by decide)
    · cases htail : line.dropWhile (· != '\n') with
      | nil => exact .inl rfl
      | cons c next =>
          have hhead := List.head?_dropWhile_not (· != '\n') line
          rw [htail, List.head?_cons] at hhead
          exact .inr ⟨next, by rw [show c = '\n' by simpa using hhead]⟩
  · rename_i c rest _
    split at h
    · rename_i hc
      obtain rfl := Option.some.inj h
      exact .inl ⟨c, rest, rfl, isSkipped_iff.mp hc, rfl⟩
    · cases h
  · cases h

/-- From the offset `base` on, the text falls into the lexemes, with gaps in front of each and behind
the last one, up to the offset `stop`, where `rest` is left of it. -/
inductive Tiled : Nat → List Char → List Lexeme → Nat → List Char → Prop
  | done {base stop : Nat} {gap rest : List Char} (hgap : Gap gap rest)
      (hstop : stop = base + Text.byteLength gap) : Tiled base (gap ++ rest) [] stop rest
  | lexeme {base stop : Nat} {gap more rest : List Char} {l : Lexeme} {ls : List Lexeme}
      (hgap : Gap gap (l.text ++ more)) (hstart : l.start = base + Text.byteLength gap)
      (hlongest : IsLongest l.kind l.text more) (hmore : Tiled l.stop more ls stop rest) :
      Tiled base (gap ++ (l.text ++ more)) (l :: ls) stop rest

/-- Neither a lexeme nor a gap starts where the text does. -/
structure Unmatched (cs : List Char) : Prop where
  lexeme : ∀ (kind : Kind) (found rest : List Char), cs = found ++ rest → ¬kind.Matches found
  space : ∀ c rest, cs = c :: rest → ¬IsSpace c
  comment : ∀ rest, cs ≠ '/' :: '/' :: rest

/-- A brace that is not closed, a quote that is not closed, or any other character that nothing starts
with. -/
inductive Stuck : List Char → Issue → Prop
  | brace {rest : List Char} (h : Unmatched ('{' :: rest)) : Stuck ('{' :: rest) .unterminatedBlock
  | quote {quote : Char} {rest : List Char} (hquote : Block.isQuote quote = true)
      (h : Unmatched (quote :: rest)) : Stuck (quote :: rest) .unterminatedString
  | other {c : Char} {rest : List Char} (hbrace : c ≠ '{') (hquote : Block.isQuote c = false)
      (h : Unmatched (c :: rest)) : Stuck (c :: rest) (.unexpectedCharacter c)

theorem unmatched_of_none (hskip : skip? cs = none) (hlongest : Pattern.longest cs = none) :
    Unmatched cs := by
  refine ⟨longest_eq_none_iff.mp hlongest, ?_, ?_⟩
  · rintro c rest rfl hc
    rw [skip?_space hc] at hskip
    cases hskip
  · rintro rest rfl
    cases hskip

theorem Unmatched.skip?_eq_none (h : Unmatched cs) : skip? cs = none := by
  cases hskip : skip? cs with
  | none => rfl
  | some n =>
      rcases skip?_cases hskip with ⟨c, rest, hcs, hc, -⟩ | ⟨note, rest, hcs, -⟩
      · exact (h.space c rest hcs hc).elim
      · exact (h.comment _ hcs).elim

theorem stuck_of_unmatched {c : Char} (h : Unmatched (c :: rest)) :
    Stuck (c :: rest) (Issue.ofChar c) := by
  unfold Issue.ofChar
  split
  · rename_i hbrace
    subst hbrace
    exact .brace h
  · rename_i hbrace
    split
    · rename_i hquote
      refine .quote ?_ h
      simpa [Block.isQuote] using hquote
    · rename_i hquote
      refine .other hbrace ?_ h
      simpa [Block.isQuote] using hquote

theorem Stuck.exists_cons {issue : Issue} (h : Stuck cs issue) :
    ∃ c rest, cs = c :: rest ∧ Unmatched (c :: rest) ∧ issue = Issue.ofChar c := by
  cases h with
  | brace h => exact ⟨_, _, rfl, h, rfl⟩
  | @quote quote rest hquote h =>
      refine ⟨quote, rest, rfl, h, ?_⟩
      rcases Block.isQuote_iff.mp hquote with rfl | rfl
      · rfl
      · rfl
  | @other c rest hbrace hquote h =>
      refine ⟨c, rest, rfl, h, ?_⟩
      have hc : ¬c = '\x27' ∧ ¬c = '"' := by simpa [Block.isQuote] using hquote
      simp [Issue.ofChar, hbrace, hc]

theorem scan_of_stuckAt {issue : Issue} (h : Stuck cs issue) (base : Nat) :
    scan cs base = .error ⟨base, issue⟩ := by
  obtain ⟨c, rest, rfl, hunmatched, rfl⟩ := h.exists_cons
  exact scan_of_stuck hunmatched.skip?_eq_none (longest_eq_none_iff.mpr hunmatched.lexeme) base

/-- Where a tiling has come to, the scan goes on. -/
theorem scan_of_tiled (h : Tiled base cs ls stop rest) :
    scan cs base = (scan rest stop).map (ls ++ ·) := by
  induction h with
  | @done base stop gap rest hgap hstop =>
      rw [scan_gap hgap, ← hstop]
      cases scan rest stop <;> rfl
  | @lexeme base stop gap more rest l ls hgap hstart hlongest _ ih =>
      have hfound := hlongest.longest_eq
      obtain ⟨c, tail, htext⟩ := List.exists_cons_of_ne_nil hlongest.found.ne_nil
      rw [scan_gap hgap, ← hstart]
      rw [htext, List.cons_append] at hfound
      have hscan := scan_of_found (Pattern.skip?_of_longest hfound) hfound l.start
      rw [← List.cons_append, ← htext, List.drop_left, List.take_left] at hscan
      change scan (l.text ++ more) l.start = (scan more l.stop).map (l :: ·) at hscan
      rw [hscan, ih]
      cases scan rest stop <;> rfl

theorem Tiled.space {c : Char} (hc : IsSpace c)
    (h : Tiled (base + c.utf8Size) cs ls stop rest) : Tiled base (c :: cs) ls stop rest := by
  cases h with
  | done hgap hstop =>
      refine .done (hgap.cons hc) ?_
      rw [hstop, Text.byteLength, Nat.add_assoc]
  | lexeme hgap hstart hlongest hmore =>
      refine .lexeme (hgap.cons hc) ?_ hlongest hmore
      rw [hstart, Text.byteLength, Nat.add_assoc]

theorem Tiled.comment {note : List Char} (hnote : '\n' ∉ note) (hend : AtLineEnd cs)
    (h : Tiled (base + Text.byteLength ('/' :: '/' :: note)) cs ls stop rest) :
    Tiled base ('/' :: '/' :: note ++ cs) ls stop rest := by
  have hcomment : Gap ('/' :: '/' :: note) cs :=
    @Gap.comment [] note cs (List.forall_mem_nil _) hnote hend
  cases h with
  | done hgap hstop =>
      obtain rfl := hgap.eq_nil hend
      exact .done hcomment hstop
  | lexeme hgap hstart hlongest hmore =>
      obtain rfl := hgap.eq_nil hend
      exact .lexeme hcomment hstart hlongest hmore

theorem exists_tiled (cs : List Char) (base : Nat) :
    ∃ ls stop rest, Tiled base cs ls stop rest ∧ (rest = [] ∨ ∃ issue, Stuck rest issue) := by
  induction cs using scan_induction generalizing base with
  | nil => exact ⟨[], base, [], .done (gap_nil []) rfl, .inl rfl⟩
  | skip c tail n hskip ih =>
      obtain ⟨ls, stop, rest, htiled, hrest⟩ := ih (base + Text.byteLength ((c :: tail).take n))
      refine ⟨ls, stop, rest, ?_, hrest⟩
      rcases skip?_cases hskip with ⟨_, _, heq, hc, rfl⟩ | ⟨note, more, heq, hnote, hend, rfl⟩
      · obtain ⟨rfl, rfl⟩ := List.cons.inj heq
        exact .space hc htiled
      · have hlength : note.length + 2 = ('/' :: '/' :: note).length := rfl
        rw [heq, ← List.cons_append, ← List.cons_append] at htiled ⊢
        rw [hlength, List.take_left, List.drop_left] at htiled
        exact .comment hnote hend htiled
  | stuck c tail hskip hlongest =>
      exact ⟨[], base, c :: tail, .done (gap_nil _) rfl,
        .inr ⟨_, stuck_of_unmatched (unmatched_of_none hskip hlongest)⟩⟩
  | found c tail kind n hskip hlongest ih =>
      obtain ⟨ls, stop, rest, htiled, hrest⟩ := ih (base + Text.byteLength ((c :: tail).take n))
      refine ⟨⟨kind, (c :: tail).take n, base⟩ :: ls, stop, rest, ?_, hrest⟩
      have htile := Tiled.lexeme (l := ⟨kind, (c :: tail).take n, base⟩) (gap_nil _) rfl
        (isLongest_of_longest hlongest) htiled
      rwa [List.nil_append, List.take_append_drop] at htile

/-- The lexemes stand in the text one after the other, none of them empty, and each starts and ends
between characters; what is left of the text starts where the tiling stops. -/
structure Spanned (base : Nat) (cs : List Char) (ls : List Lexeme) (stop : Nat)
    (rest : List Char) : Prop where
  nonempty : ∀ l ∈ ls, l.start < l.stop
  place : ∀ l ∈ ls, ∃ before after, cs = before ++ l.text ++ after ∧
    l.start = base + Text.byteLength before ∧ l.stop ≤ stop
  ordered : ls.Pairwise fun a b => a.stop ≤ b.start
  reached : ∃ before, cs = before ++ rest ∧ stop = base + Text.byteLength before

theorem Tiled.spanned (h : Tiled base cs ls stop rest) : Spanned base cs ls stop rest := by
  induction h with
  | @done base stop gap rest hgap hstop =>
      exact ⟨List.forall_mem_nil _, List.forall_mem_nil _, .nil, gap, rfl, hstop⟩
  | @lexeme base stop gap more rest l ls hgap hstart hlongest _ ih =>
      have hl : l.stop = base + Text.byteLength (gap ++ l.text) := by
        rw [Lexeme.stop, hstart, Text.byteLength_append, Nat.add_assoc]
      obtain ⟨before, rfl, hreached⟩ := ih.reached
      constructor
      case nonempty =>
        refine List.forall_mem_cons.mpr ⟨?_, ih.nonempty⟩
        have hpos := Text.byteLength_pos hlongest.found.ne_nil
        rw [Lexeme.stop]
        omega
      case place =>
        refine List.forall_mem_cons.mpr ⟨⟨gap, before ++ rest, ?_, hstart, ?_⟩, ?_⟩
        · rw [List.append_assoc]
        · omega
        · intro l' hl'
          obtain ⟨front, after, heq, hstart', hstop'⟩ := ih.place l' hl'
          refine ⟨gap ++ l.text ++ front, after, ?_, ?_, hstop'⟩
          · rw [heq]
            simp only [List.append_assoc]
          · rw [hstart', hl, Text.byteLength_append (gap ++ l.text), Nat.add_assoc]
      case ordered =>
        refine .cons (fun l' hl' => ?_) ih.ordered
        obtain ⟨front, -, -, hstart', -⟩ := ih.place l' hl'
        omega
      case reached =>
        refine ⟨gap ++ l.text ++ before, ?_, ?_⟩
        · simp only [List.append_assoc]
        · rw [hreached, hl, Text.byteLength_append (gap ++ l.text), Nat.add_assoc]

theorem scan_of_tiled_nil (h : Tiled base cs ls stop []) : scan cs base = .ok ls := by
  rw [scan_of_tiled h]
  exact congrArg Except.ok (List.append_nil ls)

theorem scan_of_tiled_stuck {issue : Issue} (h : Tiled base cs ls stop rest)
    (hissue : Stuck rest issue) : scan cs base = .error ⟨stop, issue⟩ := by
  rw [scan_of_tiled h, scan_of_stuckAt hissue]
  rfl

theorem scan_eq_ok_iff : scan cs base = .ok ls ↔ ∃ stop, Tiled base cs ls stop [] := by
  refine ⟨fun h => ?_, fun ⟨_, h⟩ => scan_of_tiled_nil h⟩
  obtain ⟨found, stop, rest, htiled, rfl | ⟨issue, hissue⟩⟩ := exists_tiled cs base
  · obtain rfl := Except.ok.inj ((scan_of_tiled_nil htiled).symm.trans h)
    exact ⟨stop, htiled⟩
  · cases (scan_of_tiled_stuck htiled hissue).symm.trans h

theorem scan_eq_error_iff {failure : Failure} : scan cs base = .error failure ↔
    ∃ ls rest, Tiled base cs ls failure.start rest ∧ Stuck rest failure.issue := by
  refine ⟨fun h => ?_, fun ⟨_, _, h, hissue⟩ => scan_of_tiled_stuck h hissue⟩
  obtain ⟨found, stop, rest, htiled, rfl | ⟨issue, hissue⟩⟩ := exists_tiled cs base
  · cases (scan_of_tiled_nil htiled).symm.trans h
  · obtain rfl := Except.error.inj ((scan_of_tiled_stuck htiled hissue).symm.trans h)
    exact ⟨found, rest, htiled, hissue⟩

/-- A scan of a part of a source fails between characters of the source. -/
theorem isCut_of_scan_error {source first last : List Char} {failure : Failure}
    (hsource : source = first ++ cs ++ last)
    (h : scan cs (Text.byteLength first) = .error failure) : Text.IsCut source failure.start := by
  obtain ⟨ls, rest, htiled, -⟩ := scan_eq_error_iff.mp h
  obtain ⟨before, rfl, hstart⟩ := htiled.spanned.reached
  refine ⟨first ++ before, rest ++ last, ?_, ?_⟩
  · rw [hsource]
    simp only [List.append_assoc]
  · rw [hstart, Text.byteLength_append]

/-- A scan succeeds with the lexemes of a tiling of the whole text, and it fails where a tiling cannot
go on. Where the text starts only moves the offsets. -/
theorem scan_tiles (cs : List Char) (base : Nat) :
    (∀ ls, scan cs base = .ok ls ↔ ∃ stop, Tiled base cs ls stop []) ∧
      (∀ failure, scan cs base = .error failure ↔
        ∃ ls rest, Tiled base cs ls failure.start rest ∧ Stuck rest failure.issue) ∧
      (∀ ls stop rest, Tiled base cs ls stop rest → Spanned base cs ls stop rest) ∧
      scan cs base =
        ((scan cs 0).map (List.map (shift base))).mapError (Failure.moved base) := by
  refine ⟨fun _ => scan_eq_ok_iff, fun _ => scan_eq_error_iff, fun _ _ _ h => h.spanned, ?_⟩
  have hmoved := scan_add base cs 0
  rwa [Nat.zero_add] at hmoved

end RowRecipe.Lexeme
