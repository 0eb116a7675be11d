import RowRecipe.Proofs.Lexeme.Layout
import RowRecipe.Proofs.Outcome

/-!
Replacing a part of a text. What a text is found to start with does not depend on what follows, as long
as that runs on into nothing. So a text may be replaced from where one of its lexemes starts: the
lexemes in front of that stay. When a block gets another text, those behind it only move.
-/

namespace RowRecipe

namespace Text

theorem byteLength_pos {cs : List Char} (h : cs ≠ []) : 0 < byteLength cs := by
  obtain ⟨c, rest, rfl⟩ := List.exists_cons_of_ne_nil h
  exact Nat.add_pos_left c.utf8Size_pos _

/-- A first part that is no longer than another one in bytes is no longer in characters. -/
theorem length_le_of_byteLength_take {a b : List Char} {n : Nat} (hn : n ≤ (a ++ b).length)
    (h : byteLength ((a ++ b).take n) ≤ byteLength a) : n ≤ a.length := by
  by_contra hlt
  have hrest : b.take (n - a.length) ≠ [] := by
    rw [List.length_append] at hn
    refine List.ne_nil_of_length_pos ?_
    rw [List.length_take]
    omega
  have hpos := byteLength_pos hrest
  rw [List.take_append, List.take_of_length_le (Nat.le_of_not_le hlt), byteLength_append] at h
  omega

end Text

namespace Lexeme

/-- The text starts with no character that could continue a lexeme or the mark of a comment. -/
def Fresh (rest : List Char) : Prop :=
  Text.StopsAt (fun c => Pattern.continuesColumn c || c == '/') rest

variable {first rest rest' : List Char} {base : Nat} {l : Lexeme} {before after : List Lexeme}

theorem Fresh.apart (h : Fresh rest) : Apart rest :=
  Text.StopsAt.mono h fun c hc => by rw [hc, Bool.true_or]

/-- The text is a comment that has not ended. -/
def IsComment (cs : List Char) : Prop := ∃ note, cs = '/' :: '/' :: note ∧ '\n' ∉ note

theorem skip?_append_fresh (hne : first ≠ []) (hrest : Fresh rest) (hcomment : ¬ IsComment first) :
    skip? (first ++ rest) = skip? first := by
  obtain ⟨c, tail, rfl⟩ := List.exists_cons_of_ne_nil hne
  by_cases hc : c = '/'
  · subst hc
    cases tail with
    | nil =>
        cases rest with
        | nil => rfl
        | cons d rest =>
            have hd : d ≠ '/' := by
              rintro rfl
              exact absurd (hrest '/' rfl) (by decide)
            simp [skip?, hd]
    | cons d note =>
        by_cases hd : d = '/'
        · subst hd
          have hnewline : '\n' ∈ note := by
            by_contra hnewline
            exact hcomment ⟨note, rfl, hnewline⟩
          have hends : (note.takeWhile (· != '\n')).length ≠ note.length := by
            intro hall
            have hwhole := (List.takeWhile_sublist (l := note) (· != '\n')).eq_of_length hall
            rw [← hwhole] at hnewline
            exact absurd (List.mem_takeWhile_imp hnewline) (by decide)
          simp only [List.cons_append, skip?, List.takeWhile_append, if_neg hends]
        · simp [skip?, hd]
  · simp [skip?, hc]

theorem scan_nonempty {cs : List Char} {ls : List Lexeme} (h : scan cs base = .ok ls) :
    ∀ l ∈ ls, l.text ≠ [] := by
  refine forall_of_scan (fun cs kind n start hlongest => ?_) h
  have hbounds := Pattern.longest_bounds hlongest
  refine List.ne_nil_of_length_pos ?_
  rw [List.length_take]
  omega

/-- In front of a lexeme that starts where the text does, there is none. -/
theorem eq_nil_of_start {cs : List Char} (h : scan cs base = .ok (before ++ l :: after))
    (hl : l.start = base) : before = [] := by
  cases before with
  | nil => rfl
  | cons b more =>
      obtain ⟨hbounds, hordered⟩ := scan_ordered cs base _ h
      have hstart := (hbounds b List.mem_cons_self).1
      have hstop : b.stop ≤ l.start :=
        List.rel_of_pairwise_cons hordered (List.mem_append_right more List.mem_cons_self)
      have hpos := Text.byteLength_pos (scan_nonempty h b List.mem_cons_self)
      have hlength : b.stop = b.start + Text.byteLength b.text := rfl
      omega

/-- A comment takes all of the text up to the next newline. -/
theorem scan_comment_append (h : IsComment first) (rest : List Char) (base : Nat) :
    scan (first ++ rest) base = scan (rest.dropWhile (· != '\n'))
      (base + (Text.byteLength first + Text.byteLength (rest.takeWhile (· != '\n')))) := by
  obtain ⟨note, rfl, hnote⟩ := h
  have hinline : ∀ c ∈ note, (c != '\n') = true := by
    intro c hc
    refine bne_iff_ne.mpr ?_
    rintro rfl
    exact hnote hc
  have hskip : skip? ('/' :: '/' :: (note ++ rest)) =
      some (('/' :: '/' :: note) ++ rest.takeWhile (· != '\n')).length := by
    rw [skip?, List.takeWhile_append_of_pos hinline, List.cons_append, List.cons_append,
      List.length_cons, List.length_cons, Nat.add_comm]
  have hwhole : '/' :: '/' :: (note ++ rest) =
      ('/' :: '/' :: note) ++ rest.takeWhile (· != '\n') ++ rest.dropWhile (· != '\n') := by
    rw [List.append_assoc, List.takeWhile_append_dropWhile]
    rfl
  rw [List.cons_append, List.cons_append, scan_of_skip hskip, hwhole, List.drop_left,
    List.take_left, Text.byteLength_append]

/-- No lexeme but a newline starts where a comment has not ended. -/
theorem scan_of_isComment (hcomment : IsComment first)
    (h : scan (first ++ rest) base = .ok (before ++ l :: after))
    (hl : l.start = base + Text.byteLength first) :
    '\n' ∈ rest.head? ∧ scan rest l.start = .ok (before ++ l :: after) := by
  rw [scan_comment_append hcomment] at h
  have hbound := ((scan_ordered _ _ _ h).1 l (List.mem_append_right before List.mem_cons_self)).1
  have hnone : rest.takeWhile (· != '\n') = [] := by
    by_contra hne
    have hpos := Text.byteLength_pos hne
    omega
  have hsame : rest.dropWhile (· != '\n') = rest := by
    have hparts := List.takeWhile_append_dropWhile (p := (· != '\n')) (l := rest)
    rwa [hnone, List.nil_append] at hparts
  rw [hnone, hsame, ← Nat.add_assoc, ← hl] at h
  refine ⟨?_, h⟩
  cases rest with
  | nil =>
      have hempty := Except.ok.inj h
      cases before <;> cases hempty
  | cons c rest =>
      by_contra hc
      have hc : c ≠ '\n' := by
        rintro rfl
        exact hc rfl
      simp [hc] at hnone

theorem scan_append_skip {c : Char} {tail : List Char} {n : Nat} (hrest : Fresh rest)
    (hcomment : ¬ IsComment (c :: tail)) (hskip : skip? (c :: tail) = some n) (base : Nat) :
    scan (c :: tail ++ rest) base =
      scan ((c :: tail).drop n ++ rest) (base + Text.byteLength ((c :: tail).take n)) := by
  have hn := (skip?_bounds hskip).2
  have hskips : skip? (c :: (tail ++ rest)) = some n := by
    rw [← List.cons_append, skip?_append_fresh (List.cons_ne_nil c tail) hrest hcomment, hskip]
  rw [List.cons_append, scan_of_skip hskips, ← List.cons_append, List.drop_append_of_le_length hn,
    List.take_append_of_le_length hn]

/-- Where nothing is passed over, nothing is passed over in front of other text either. -/
theorem skip?_append_of_none {c : Char} {tail : List Char} (hrest : Fresh rest)
    (h : skip? (c :: tail) = none) : skip? (c :: (tail ++ rest)) = none := by
  have hcomment : ¬ IsComment (c :: tail) := by
    rintro ⟨note, heq, -⟩
    rw [heq] at h
    cases h
  rw [← List.cons_append, skip?_append_fresh (List.cons_ne_nil c tail) hrest hcomment, h]

theorem scan_append_found {c : Char} {tail : List Char} {kind : Kind} {n : Nat} (hrest : Fresh rest)
    (hskip : skip? (c :: tail) = none) (hlongest : Pattern.longest (c :: tail) = some (kind, n))
    (base : Nat) :
    scan (c :: tail ++ rest) base =
      (scan ((c :: tail).drop n ++ rest) (base + Text.byteLength ((c :: tail).take n))).map
        (⟨kind, (c :: tail).take n, base⟩ :: ·) := by
  have hn := (Pattern.longest_bounds hlongest).2
  have hfound : Pattern.longest (c :: (tail ++ rest)) = some (kind, n) :=
    Pattern.longest_append (List.cons_ne_nil c tail) hlongest hrest.apart
  rw [List.cons_append, scan_of_found (skip?_append_of_none hrest hskip) hfound, ← List.cons_append,
    List.drop_append_of_le_length hn, List.take_append_of_le_length hn]

/-- A lexeme that starts in front of another one ends in front of it. -/
theorem longest_of_scan_append {c : Char} {tail : List Char} (hrest : Fresh rest)
    (hskip : skip? (c :: tail) = none)
    (h : scan (c :: tail ++ rest) base = .ok (before ++ l :: after))
    (hl : l.start = base + Text.byteLength (c :: tail)) :
    ∃ kind n, Pattern.longest (c :: tail) = some (kind, n) := by
  have hskips := skip?_append_of_none hrest hskip
  cases hlongest : Pattern.longest (c :: (tail ++ rest)) with
  | none =>
      rw [List.cons_append, scan_of_stuck hskips hlongest] at h
      cases h
  | some found =>
      obtain ⟨kind, n⟩ := found
      refine ⟨kind, n, Pattern.longest_of_append (List.cons_ne_nil c tail) hrest.apart hlongest ?_⟩
      apply Text.length_le_of_byteLength_take (Pattern.longest_bounds hlongest).2
      have hordered := (scan_ordered _ base _ h).2
      rw [List.cons_append, scan_of_found hskips hlongest, ← List.cons_append] at h
      obtain ⟨more, -, hmore⟩ := Outcome.map_eq_ok.mp h
      cases before with
      | nil =>
          have hpos := Text.byteLength_pos (List.cons_ne_nil c tail)
          have hstart : l.start = base := by rw [← (List.cons.inj hmore).1]
          omega
      | cons b before =>
          have hstop : b.stop ≤ l.start :=
            List.rel_of_pairwise_cons hordered (List.mem_append_right before List.mem_cons_self)
          rw [← (List.cons.inj hmore).1, hl] at hstop
          exact Nat.le_of_add_le_add_left hstop

/-- A text may be replaced from where one of its lexemes starts: in front of that, the same lexemes
are found. -/
theorem scan_replace (hrest : Fresh rest) (hrest' : Fresh rest')
    (hends : '\n' ∈ rest.head? → ∀ cs start, IsComment cs →
      scan (cs ++ rest') start = scan rest' (start + Text.byteLength cs))
    (h : scan (first ++ rest) base = .ok (before ++ l :: after))
    (hl : l.start = base + Text.byteLength first) :
    scan rest l.start = .ok (l :: after) ∧
      scan (first ++ rest') base = (scan rest' l.start).map (before ++ ·) := by
  have hnil : ∀ result : Except Failure (List Lexeme), result = result.map ([] ++ ·) := by
    intro result
    cases result <;> rfl
  have hcut : ∀ (cs : List Char) (base n : Nat), base + Text.byteLength cs =
      base + Text.byteLength (cs.take n) + Text.byteLength (cs.drop n) := by
    intro cs base n
    rw [Nat.add_assoc, ← Text.byteLength_append, List.take_append_drop]
  induction first using scan_induction generalizing base before with
  | nil =>
      obtain rfl : l.start = base := hl
      obtain rfl := eq_nil_of_start h rfl
      exact ⟨h, hnil _⟩
  | skip c tail n hskip ih =>
      by_cases hcomment : IsComment (c :: tail)
      · obtain ⟨hnewline, hscan⟩ := scan_of_isComment hcomment h hl
        rw [hends hnewline _ _ hcomment, ← hl]
        obtain rfl := eq_nil_of_start hscan rfl
        exact ⟨hscan, hnil _⟩
      · rw [scan_append_skip hrest hcomment hskip] at h
        rw [scan_append_skip hrest' hcomment hskip]
        exact ih h (hl.trans (hcut _ base n))
  | stuck c tail hskip hlongest =>
      obtain ⟨kind, n, hfound⟩ := longest_of_scan_append hrest hskip h hl
      cases hlongest.symm.trans hfound
  | found c tail kind n hskip hlongest ih =>
      rw [scan_append_found hrest hskip hlongest] at h
      rw [scan_append_found hrest' hskip hlongest]
      obtain ⟨more, hmore, heq⟩ := Outcome.map_eq_ok.mp h
      cases before with
      | nil =>
          have hpos := Text.byteLength_pos (List.cons_ne_nil c tail)
          have hstart : l.start = base := by rw [← (List.cons.inj heq).1]
          omega
      | cons b before =>
          obtain ⟨rfl, rfl⟩ := List.cons.inj heq
          obtain ⟨hscan, hscan'⟩ := ih hmore (hl.trans (hcut _ base n))
          refine ⟨hscan, ?_⟩
          rw [hscan']
          cases scan rest' l.start <;> rfl

theorem exists_place_of_scan {cs : List Char} (h : scan cs base = .ok (before ++ l :: after)) :
    ∃ first last, cs = first ++ (l.text ++ last) ∧ l.start = base + Text.byteLength first := by
  induction before generalizing cs base with
  | nil =>
      obtain ⟨gap, rest, hcs, hstart, -⟩ := exists_gap_of_scan h
      exact ⟨gap, rest, hcs, hstart⟩
  | cons b before ih =>
      obtain ⟨gap, rest, rfl, hstart, hrest, -⟩ := exists_gap_of_scan h
      obtain ⟨first, last, rfl, hl⟩ := ih hrest
      refine ⟨gap ++ b.text ++ first, last, by simp only [List.append_assoc], ?_⟩
      rw [hl, stop, hstart, Text.byteLength_append, Text.byteLength_append]
      omega

theorem length?_of_block {cs : List Char} {ls : List Lexeme} (h : scan cs base = .ok ls) :
    ∀ l ∈ ls, l.kind = .block → Block.length? l.text = some l.text.length := by
  refine forall_of_scan (fun cs kind n start hlongest hkind => ?_) h
  obtain rfl : kind = .block := hkind
  obtain ⟨p, hmem, hmatch⟩ := Pattern.longest_mem hlongest
  obtain rfl : p = Pattern.block := by simpa [Pattern.all] using hmem
  have hlength : (cs.take n).length = n := by
    rw [List.length_take, Nat.min_eq_left (Pattern.longest_bounds hlongest).2]
  change Block.length? (cs.take n) = some (cs.take n).length
  rw [hlength]
  apply Block.length?_of_append _ (cs.drop n)
  · rwa [List.take_append_drop]
  · exact hlength.ge

/-- A block with another text moves what stands behind it. -/
theorem scan_replace_block {last block' : List Char} {distance : Nat}
    (hblock' : Block.length? block' = some block'.length) (hblock : l.kind = .block)
    (hdistance : Text.byteLength block' = Text.byteLength l.text + distance)
    (h : scan (first ++ (l.text ++ last)) base = .ok (before ++ l :: after))
    (hl : l.start = base + Text.byteLength first) :
    scan (first ++ (block' ++ last)) base =
      .ok (before ++ ⟨.block, block', l.start⟩ :: after.map (shift distance)) := by
  have hfresh : ∀ rest, Fresh ('{' :: rest) := fun rest => Text.stopsAt_cons (by decide) rest
  obtain ⟨inner, htext⟩ := (scan_spelled h l (List.mem_append_right before List.mem_cons_self)).block
    hblock
  obtain ⟨inner', -, htext', -⟩ := Block.eq_cons_of_length? hblock'
  have hrest : Fresh (l.text ++ last) := by
    rw [htext]
    exact hfresh _
  have hrest' : Fresh (block' ++ last) := by
    rw [htext']
    exact hfresh _
  have hends : ¬ '\n' ∈ (l.text ++ last).head? := by
    rw [htext]
    rintro ⟨⟩
  obtain ⟨hscan, hscan'⟩ := scan_replace hrest hrest' (fun h => (hends h).elim) h hl
  -- behind the block, the rest of the text is scanned from where the block ends
  obtain ⟨gap, rest, heq, hstart, hafter, -⟩ := exists_gap_of_scan hscan
  have hgap : gap = [] := by
    by_contra hne
    have hpos := Text.byteLength_pos hne
    omega
  rw [hgap, List.nil_append] at heq
  obtain rfl := List.append_cancel_left heq
  have hlongest : Pattern.longest ('{' :: (inner' ++ last)) = some (.block, block'.length) := by
    rw [Pattern.longest_of_brace, Pattern.block, ← List.cons_append, ← htext',
      Block.length?_append _ _ _ hblock', Option.map_some]
  have hfound := scan_of_found (Pattern.skip?_of_longest hlongest) hlongest l.start
  rw [← List.cons_append, ← htext', List.drop_left, List.take_left, hdistance, ← Nat.add_assoc,
    scan_add] at hfound
  change scan _ (l.start + Text.byteLength l.text) = _ at hafter
  rw [hscan', hfound, hafter]
  rfl

end Lexeme

end RowRecipe
