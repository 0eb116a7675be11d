import RowRecipe.Lexeme.Scan
import RowRecipe.Proofs.Lexeme.Patterns
import RowRecipe.Proofs.Outcome
import RowRecipe.Proofs.Text.Offsets

/-!
Scanning as a recursion on the text. The fuel that `scanFrom` takes is never what ends a scan, so
the three ways in which a scan goes on are equations of `scan` itself, and `scan_induction` follows
them; `scan_ok_induction` follows a scan that comes to the end of its text. From these: offsets only
count from where the text starts, every lexeme stands in the text where it says, and a scan that
reached the end of a line goes on at the next one as if it started there.
-/

namespace RowRecipe.Lexeme

theorem skip?_bounds {cs : List Char} {n : Nat} (h : skip? cs = some n) :
    0 < n ∧ n ≤ cs.length := by
  unfold skip? at h
  split at h
  · rename_i rest
    obtain rfl := Option.some.inj h
    have := (List.takeWhile_sublist (l := rest) (· != '\n')).length_le
    simp only [List.length_cons]
    omega
  · rename_i rest _
    split at h
    · obtain rfl := Option.some.inj h
      exact ⟨Nat.one_pos, Nat.le_add_left 1 rest.length⟩
    · cases h
  · cases h

/-- A comment ends in front of a newline, and one slash before a newline starts none. -/
theorem skip?_append_newline {cs : List Char} (hne : cs ≠ []) (more : List Char) :
    skip? (cs ++ '\n' :: more) = skip? cs := by
  obtain ⟨c, rest, rfl⟩ := List.exists_cons_of_ne_nil hne
  by_cases hc : c = '/'
  · subst hc
    cases rest with
    | nil => simp [skip?, isSkipped]
    | cons d rest =>
        by_cases hd : d = '/'
        · subst hd
          have hstop : Text.StopsAt (· != '\n') ('\n' :: more) := Text.stopsAt_cons (by decide) more
          simp only [List.cons_append, skip?, Text.takeWhile_append_left hstop]
        · simp [skip?, hd]
  · simp [skip?, hc]

theorem length_drop_cons_le (c : Char) (rest : List Char) {n : Nat} (hn : 0 < n) :
    ((c :: rest).drop n).length ≤ rest.length := by
  simp only [List.length_drop, List.length_cons]
  omega

/-- Any two amounts of fuel that cover the text give the same lexemes. -/
theorem scanFrom_congr (fuel₁ : Nat) : ∀ (fuel₂ : Nat) (cs : List Char) (start : Nat),
    cs.length ≤ fuel₁ → cs.length ≤ fuel₂ → scanFrom fuel₁ cs start = scanFrom fuel₂ cs start := by
  induction fuel₁ with
  | zero =>
      intro fuel₂ cs start h₁ _
      obtain rfl := List.eq_nil_of_length_eq_zero (Nat.le_zero.mp h₁)
      cases fuel₂ <;> rfl
  | succ fuel₁ ih =>
      intro fuel₂ cs start h₁ h₂
      cases cs with
      | nil => cases fuel₂ <;> rfl
      | cons c rest =>
          obtain ⟨fuel₂, rfl⟩ := Nat.exists_eq_add_one_of_ne_zero (n := fuel₂) (by
            rintro rfl
            exact absurd h₂ (Nat.not_succ_le_zero _))
          have hdrop : ∀ n, 0 < n → ∀ start', scanFrom fuel₁ ((c :: rest).drop n) start' =
              scanFrom fuel₂ ((c :: rest).drop n) start' := by
            intro n hn start'
            have hlength := length_drop_cons_le c rest hn
            apply ih
            · exact Nat.le_trans hlength (Nat.le_of_succ_le_succ h₁)
            · exact Nat.le_trans hlength (Nat.le_of_succ_le_succ h₂)
          simp only [scanFrom]
          cases hskip : skip? (c :: rest) with
          | some n => exact hdrop n (skip?_bounds hskip).1 _
          | none =>
              cases hlongest : Pattern.longest (c :: rest) with
              | none => rfl
              | some found =>
                  obtain ⟨kind, n⟩ := found
                  simp only [hdrop n (Pattern.longest_bounds hlongest).1]

theorem scanFrom_eq_scan {fuel : Nat} {cs : List Char} (h : cs.length ≤ fuel) (start : Nat) :
    scanFrom fuel cs start = scan cs start :=
  scanFrom_congr _ _ cs start h (Nat.le_refl _)

section Steps

variable {c : Char} {rest : List Char} {n : Nat}

theorem scan_of_skip (hskip : skip? (c :: rest) = some n) (base : Nat) :
    scan (c :: rest) base =
      scan ((c :: rest).drop n) (base + Text.byteLength ((c :: rest).take n)) := by
  have hn := (skip?_bounds hskip).1
  rw [← scanFrom_eq_scan (length_drop_cons_le c rest hn)]
  simp only [scan, List.length_cons, scanFrom, hskip]

theorem scan_of_stuck (hskip : skip? (c :: rest) = none)
    (hlongest : Pattern.longest (c :: rest) = none) (base : Nat) :
    scan (c :: rest) base = .error ⟨base, Issue.ofChar c⟩ := by
  simp only [scan, List.length_cons, scanFrom, hskip, hlongest]

theorem scan_of_found {kind : Kind} (hskip : skip? (c :: rest) = none)
    (hlongest : Pattern.longest (c :: rest) = some (kind, n)) (base : Nat) :
    scan (c :: rest) base =
      (scan ((c :: rest).drop n) (base + Text.byteLength ((c :: rest).take n))).map
        (⟨kind, (c :: rest).take n, base⟩ :: ·) := by
  have hn := (Pattern.longest_bounds hlongest).1
  rw [← scanFrom_eq_scan (length_drop_cons_le c rest hn)]
  simp only [scan, List.length_cons, scanFrom, hskip, hlongest, stop]

end Steps

/-- Induction along a scan: at the end of the text, over what is passed over, where nothing starts,
and over a lexeme. -/
theorem scan_induction {motive : List Char → Prop} (nil : motive [])
    (skip : ∀ c rest n, skip? (c :: rest) = some n → motive ((c :: rest).drop n) →
      motive (c :: rest))
    (stuck : ∀ c rest, skip? (c :: rest) = none → Pattern.longest (c :: rest) = none →
      motive (c :: rest))
    (found : ∀ c rest kind n, skip? (c :: rest) = none →
      Pattern.longest (c :: rest) = some (kind, n) → motive ((c :: rest).drop n) →
      motive (c :: rest))
    (cs : List Char) : motive cs := by
  induction hlength : cs.length using Nat.strongRecOn generalizing cs with
  | ind length ih =>
      subst hlength
      cases cs with
      | nil => exact nil
      | cons c rest =>
          have hdrop : ∀ n, 0 < n → motive ((c :: rest).drop n) := by
            intro n hn
            apply ih _ _ _ rfl
            exact Nat.lt_succ_of_le (length_drop_cons_le c rest hn)
          cases hskip : skip? (c :: rest) with
          | some n => exact skip c rest n hskip (hdrop n (skip?_bounds hskip).1)
          | none =>
              cases hlongest : Pattern.longest (c :: rest) with
              | none => exact stuck c rest hskip hlongest
              | some match? =>
                  obtain ⟨kind, n⟩ := match?
                  exact found c rest kind n hskip hlongest
                    (hdrop n (Pattern.longest_bounds hlongest).1)

/-- Induction along a scan that comes to the end of its text: there, over what is passed over, and
over a lexeme. -/
@[elab_as_elim]
theorem scan_ok_induction
    {motive : ∀ (cs : List Char) (base : Nat) (ls : List Lexeme), scan cs base = .ok ls → Prop}
    (nil : ∀ base, motive [] base [] rfl)
    (skip : ∀ c rest n base ls (hskip : skip? (c :: rest) = some n)
      (hrest : scan ((c :: rest).drop n) (base + Text.byteLength ((c :: rest).take n)) = .ok ls),
      motive _ _ ls hrest → motive (c :: rest) base ls ((scan_of_skip hskip base).trans hrest))
    (found : ∀ c rest kind n base ls (hskip : skip? (c :: rest) = none)
      (hlongest : Pattern.longest (c :: rest) = some (kind, n))
      (hrest : scan ((c :: rest).drop n) (base + Text.byteLength ((c :: rest).take n)) = .ok ls),
      motive _ _ ls hrest → motive (c :: rest) base (⟨kind, (c :: rest).take n, base⟩ :: ls)
        ((scan_of_found hskip hlongest base).trans (Outcome.map_eq_ok.mpr ⟨ls, hrest, rfl⟩)))
    {cs : List Char} {base : Nat} {ls : List Lexeme} (h : scan cs base = .ok ls) :
    motive cs base ls h := by
  induction cs using scan_induction generalizing base ls with
  | nil =>
      obtain rfl := Except.ok.inj h
      exact nil base
  | skip c rest n hskip ih =>
      have hrest := (scan_of_skip hskip base).symm.trans h
      exact skip c rest n base ls hskip hrest (ih hrest)
  | stuck c rest hskip hlongest =>
      cases (scan_of_stuck hskip hlongest base).symm.trans h
  | found c rest kind n hskip hlongest ih =>
      obtain ⟨more, hrest, rfl⟩ :=
        Outcome.map_eq_ok.mp ((scan_of_found hskip hlongest base).symm.trans h)
      exact found c rest kind n base more hskip hlongest hrest (ih hrest)

/-- What holds of every longest match holds of all lexemes of a text. -/
theorem forall_of_scan {P : Lexeme → Prop}
    (hfound : ∀ cs kind n start, Pattern.longest cs = some (kind, n) → P ⟨kind, cs.take n, start⟩)
    {cs : List Char} {base : Nat} {ls : List Lexeme} (h : scan cs base = .ok ls) :
    ∀ l ∈ ls, P l := by
  induction h using scan_ok_induction with
  | nil base => exact List.forall_mem_nil _
  | skip c rest n base ls hskip hrest ih => exact ih
  | found c rest kind n base ls hskip hlongest hrest ih =>
      exact List.forall_mem_cons.mpr ⟨hfound _ kind n base hlongest, ih⟩

/-- The same failure further along. -/
def Failure.moved (bytes : Nat) (f : Failure) : Failure := ⟨f.start + bytes, f.issue⟩

/-- The offset at which a text starts is added to the offsets of its lexemes and of its failure. -/
theorem scan_add (bytes : Nat) (cs : List Char) (base : Nat) :
    scan cs (base + bytes) =
      ((scan cs base).map (List.map (shift bytes))).mapError (Failure.moved bytes) := by
  induction cs using scan_induction generalizing base with
  | nil => rfl
  | skip c rest n hskip ih =>
      rw [scan_of_skip hskip, scan_of_skip hskip, ← ih, Nat.add_right_comm]
  | stuck c rest hskip hlongest =>
      rw [scan_of_stuck hskip hlongest, scan_of_stuck hskip hlongest]
      rfl
  | found c rest kind n hskip hlongest ih =>
      rw [scan_of_found hskip hlongest, scan_of_found hskip hlongest, Nat.add_right_comm, ih]
      cases scan ((c :: rest).drop n) (base + Text.byteLength ((c :: rest).take n)) <;> rfl

/-- The lexeme stands in the source where it says, and if it is a block, it opens with a brace. -/
structure LiesIn (source : List Char) (l : Lexeme) : Prop where
  place : ∃ first last, source = first ++ l.text ++ last ∧ l.start = Text.byteLength first
  nonempty : l.text ≠ []
  opens : l.kind = .block → ∃ rest, l.text = '{' :: rest

theorem LiesIn.start_isCut {source : List Char} {l : Lexeme} (h : l.LiesIn source) :
    Text.IsCut source l.start := by
  obtain ⟨first, last, hsource, hstart⟩ := h.place
  exact ⟨first, l.text ++ last, by rw [hsource, List.append_assoc], hstart⟩

theorem LiesIn.stop_isCut {source : List Char} {l : Lexeme} (h : l.LiesIn source) :
    Text.IsCut source l.stop := by
  obtain ⟨first, last, hsource, hstart⟩ := h.place
  exact ⟨first ++ l.text, last, hsource, by rw [stop, hstart, Text.byteLength_append]⟩

/-- Every lexeme of a part of a source lies in the source. -/
theorem liesIn_of_scan {source : List Char} (cs first last : List Char) (ls : List Lexeme)
    (hsource : source = first ++ cs ++ last)
    (h : scan cs (Text.byteLength first) = .ok ls) : ∀ l ∈ ls, l.LiesIn source := by
  generalize hbase : Text.byteLength first = base at h
  induction h using scan_ok_induction generalizing first with
  | nil base => exact List.forall_mem_nil _
  | skip c rest n base ls hskip hrest ih =>
      refine ih (first ++ (c :: rest).take n) ?_ ?_
      · rw [hsource, List.append_assoc first (List.take n _), List.take_append_drop]
      · rw [Text.byteLength_append, hbase]
  | found c rest kind n base ls hskip hlongest hrest ih =>
      obtain ⟨m, rfl⟩ := Nat.exists_eq_add_one_of_ne_zero
        (Nat.pos_iff_ne_zero.mp (Pattern.longest_bounds hlongest).1)
      refine List.forall_mem_cons.mpr
        ⟨⟨⟨first, (c :: rest).drop (m + 1) ++ last, ?_, hbase.symm⟩, List.cons_ne_nil _ _, ?_⟩,
          ih (first ++ (c :: rest).take (m + 1)) ?_ ?_⟩
      · rw [← List.append_assoc, List.append_assoc first (List.take (m + 1) _),
          List.take_append_drop, hsource]
      · rintro rfl
        obtain ⟨inner, hinner⟩ := Pattern.eq_cons_of_longest_block hlongest
        exact ⟨inner.take m, by rw [hinner, List.take_succ_cons]⟩
      · rw [hsource, List.append_assoc first (List.take (m + 1) _), List.take_append_drop]
      · rw [Text.byteLength_append, hbase]

/-- Nothing that starts on one line reaches past the newline after it: when a text can be scanned, a
scan of more text after a newline goes on at the newline. -/
theorem scan_append_newline (cs more : List Char) (base : Nat) (ls : List Lexeme)
    (h : scan cs base = .ok ls) :
    scan (cs ++ '\n' :: more) base =
      (scan ('\n' :: more) (base + Text.byteLength cs)).map (ls ++ ·) := by
  induction h using scan_ok_induction with
  | nil base =>
      rw [List.nil_append, Text.byteLength, Nat.add_zero]
      cases scan ('\n' :: more) base <;> rfl
  | skip c rest n base ls hskip hrest ih =>
      have hn := (skip?_bounds hskip).2
      have hjoined : skip? (c :: (rest ++ '\n' :: more)) = some n := by
        rw [← hskip, ← skip?_append_newline (List.cons_ne_nil c rest) more, List.cons_append]
      rw [List.cons_append, scan_of_skip hjoined, ← List.cons_append,
        List.drop_append_of_le_length hn, List.take_append_of_le_length hn, ih,
        Nat.add_assoc, ← Text.byteLength_append, List.take_append_drop]
  | found c rest kind n base ls hskip hlongest hrest ih =>
      have hn := (Pattern.longest_bounds hlongest).2
      have hne := List.cons_ne_nil c rest
      have hskips : skip? (c :: (rest ++ '\n' :: more)) = none := by
        rw [← hskip, ← skip?_append_newline hne more, List.cons_append]
      have hfound : Pattern.longest (c :: (rest ++ '\n' :: more)) = some (kind, n) := by
        rw [← List.cons_append, Pattern.longest_append hne hlongest (apart_cons (by decide) more)]
      rw [List.cons_append, scan_of_found hskips hfound, ← List.cons_append,
        List.drop_append_of_le_length hn, List.take_append_of_le_length hn, ih, Nat.add_assoc,
        ← Text.byteLength_append, List.take_append_drop]
      cases scan ('\n' :: more) (base + Text.byteLength (c :: rest)) <;> rfl

end RowRecipe.Lexeme
