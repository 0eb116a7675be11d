import RowRecipe.Proofs.Lexeme.Scanning

/-!
The order of lexemes: a scan finds them one after the other, each of them inside the text.
-/

namespace RowRecipe.Lexeme

theorem start_lt_stop {source : List Char} {l : Lexeme} (h : l.LiesIn source) :
    l.start < l.stop := by
  obtain ⟨c, rest, htext⟩ := List.exists_cons_of_ne_nil h.nonempty
  have hpos := c.utf8Size_pos
  rw [stop, htext]
  simp only [Text.byteLength]
  omega

/-- The lexemes stand in the source, each after the one before it. -/
structure Laid (source : List Char) (ls : List Lexeme) : Prop where
  lie : ∀ l ∈ ls, l.LiesIn source
  ordered : ls.Pairwise fun a b => a.stop ≤ b.start

namespace Laid

variable {source : List Char} {ls more : List Lexeme}

theorem sublist (h : Laid source ls) (hsub : more.Sublist ls) : Laid source more :=
  ⟨fun l hl => h.lie l (hsub.subset hl), h.ordered.sublist hsub⟩

theorem left (h : Laid source (ls ++ more)) : Laid source ls :=
  h.sublist (List.sublist_append_left ls more)

theorem right (h : Laid source (ls ++ more)) : Laid source more :=
  h.sublist (List.sublist_append_right ls more)

theorem stop_le_start (h : Laid source (ls ++ more)) {a b : Lexeme} (ha : a ∈ ls) (hb : b ∈ more) :
    a.stop ≤ b.start :=
  (List.pairwise_append.mp h.ordered).2.2 a ha b hb

theorem first_le (h : Laid source ls) {first l : Lexeme} (hfirst : first ∈ ls.head?)
    (hl : l ∈ ls) : first.start ≤ l.start := by
  obtain ⟨rest, rfl⟩ := List.head?_eq_some_iff.mp hfirst
  rcases List.mem_cons.mp hl with rfl | hmem
  · exact Nat.le_refl _
  · have hordered := List.rel_of_pairwise_cons h.ordered hmem
    have hlt := Lexeme.start_lt_stop (h.lie first List.mem_cons_self)
    omega

theorem le_last (h : Laid source ls) {last l : Lexeme} (hlast : last ∈ ls.getLast?)
    (hl : l ∈ ls) : l.stop ≤ last.stop := by
  obtain ⟨front, rfl⟩ := List.getLast?_eq_some_iff.mp hlast
  rcases List.mem_append.mp hl with hmem | hmem
  · have hle := h.stop_le_start hmem (List.mem_singleton_self last)
    have hlt := Lexeme.start_lt_stop (h.right.lie last (List.mem_singleton_self last))
    omega
  · obtain rfl := List.mem_singleton.mp hmem
    exact Nat.le_refl _

/-- The first lexeme starts before the last one ends. -/
theorem start_lt_stop (h : Laid source ls) {first last : Lexeme} (hfirst : first ∈ ls.head?)
    (hlast : last ∈ ls.getLast?) : first.start < last.stop := by
  have hmem := List.mem_of_head? hfirst
  exact Nat.lt_of_lt_of_le (Lexeme.start_lt_stop (h.lie first hmem)) (h.le_last hlast hmem)

end Laid

/-- The lexemes of a text lie between its ends, and each starts where the one before it ends or
later. -/
theorem scan_ordered (cs : List Char) (base : Nat) (ls : List Lexeme) (h : scan cs base = .ok ls) :
    (∀ l ∈ ls, base ≤ l.start ∧ l.stop ≤ base + Text.byteLength cs) ∧
      ls.Pairwise fun a b => a.stop ≤ b.start := by
  induction h using scan_ok_induction with
  | nil base => exact ⟨List.forall_mem_nil _, .nil⟩
  | skip c rest n base ls hskip hrest ih =>
      obtain ⟨hbounds, hordered⟩ := ih
      refine ⟨fun l hl => ?_, hordered⟩
      obtain ⟨hstart, hstop⟩ := hbounds l hl
      rw [Nat.add_assoc, ← Text.byteLength_append, List.take_append_drop] at hstop
      exact ⟨by omega, hstop⟩
  | found c rest kind n base ls hskip hlongest hrest ih =>
      obtain ⟨hbounds, hordered⟩ := ih
      have hlength : Text.byteLength (c :: rest) = Text.byteLength ((c :: rest).take n) +
          Text.byteLength ((c :: rest).drop n) := by
        rw [← Text.byteLength_append, List.take_append_drop]
      have hstop : stop ⟨kind, (c :: rest).take n, base⟩ =
          base + Text.byteLength ((c :: rest).take n) := rfl
      refine ⟨List.forall_mem_cons.mpr ⟨⟨Nat.le_refl _, ?_⟩, ?_⟩, .cons ?_ hordered⟩
      · rw [hstop]
        omega
      · intro l hl
        have hl := hbounds l hl
        omega
      · intro l hl
        rw [hstop]
        exact (hbounds l hl).1

/-- The lexemes of a part of a source are laid out in the source. -/
theorem laid_of_scan {source : List Char} {cs first last : List Char} {ls : List Lexeme}
    (hsource : source = first ++ cs ++ last) (h : scan cs (Text.byteLength first) = .ok ls) :
    Laid source ls :=
  ⟨liesIn_of_scan cs first last ls hsource h, (scan_ordered cs _ ls h).2⟩

theorem laid_of_scan_zero {source : List Char} {ls : List Lexeme} (h : scan source 0 = .ok ls) :
    Laid source ls :=
  laid_of_scan (show source = [] ++ source ++ [] from (List.append_nil source).symm) h

/-- The lexemes inside the braces of a block are laid out in the source, inside of the block. -/
theorem laid_inner {block : Lexeme} {inner : List Lexeme} (h : block.LiesIn source)
    (hblock : block.kind = .block)
    (hinner : scan (block.text.drop 1).dropLast (block.start + 1) = .ok inner) :
    Laid source inner ∧ ∀ l ∈ inner, block.start ≤ l.start ∧ l.stop ≤ block.stop := by
  obtain ⟨first, last, hsource, hstart⟩ := h.place
  obtain ⟨rest, hrest⟩ := h.opens hblock
  have hends : rest.dropLast ++ rest.drop (rest.length - 1) = rest := by
    rw [List.dropLast_eq_take, List.take_append_drop]
  have hbrace : Text.byteLength (first ++ ['{']) = block.start + 1 := by
    rw [Text.byteLength_append, hstart]
    rfl
  have hdrop : block.text.drop 1 = rest := by rw [hrest, List.drop_one, List.tail_cons]
  rw [hdrop] at hinner
  constructor
  · have hinside : source = (first ++ ['{']) ++ rest.dropLast ++
        (rest.drop (rest.length - 1) ++ last) := by
      conv_lhs => rw [hsource, hrest, ← hends]
      simp only [List.append_assoc, List.cons_append, List.nil_append]
    exact laid_of_scan hinside (by rw [hbrace, hinner])
  · intro l hl
    obtain ⟨hlow, hhigh⟩ := (scan_ordered _ _ _ hinner).1 l hl
    have hlength : Text.byteLength block.text =
        1 + (Text.byteLength rest.dropLast + Text.byteLength (rest.drop (rest.length - 1))) := by
      rw [hrest, ← Text.byteLength_append, hends]
      rfl
    have hstop : block.stop = block.start + Text.byteLength block.text := rfl
    omega

end RowRecipe.Lexeme
