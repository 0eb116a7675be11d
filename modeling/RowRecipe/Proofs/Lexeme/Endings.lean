import RowRecipe.Proofs.Lexeme.Openings

/-!
What lexemes end with. No lexeme but a newline ends with one: names and numbers have none in them, a
quoted text ends with its quote, and a block with the brace that closes it.
-/

namespace RowRecipe.Lexeme

/-- A block is closed by a brace. -/
theorem Block.getLast?_of_scan {s : State} {cs : List Char} {n : Nat} (hopen : s.depth ≠ 0)
    (h : scan s cs = some n) : (cs.take n).getLast? = some '}' := by
  induction cs generalizing s n with
  | nil => cases h
  | cons c rest ih =>
      obtain ⟨hclosed, rfl⟩ | ⟨hopen', m, hm, rfl⟩ := scan_cons_eq_some.mp h
      · have hc : c = '}' := by
          by_contra hc
          have hdepth : s.depth ≤ (s.step c).depth := by
            simp only [State.step, if_neg hc]
            split
            · exact Nat.le_refl _
            · split
              · exact Nat.le_refl _
              · split <;> exact Nat.le_refl _
            · split
              · exact Nat.le_refl _
              · split
                · exact Nat.le_succ _
                · exact Nat.le_refl _
          omega
        rw [hc]
        rfl
      · rw [List.take_succ_cons, List.getLast?_cons, ih hopen' hm]
        rfl

namespace Pattern

/-- No match of the pattern ends with a newline. -/
def EndsInline (p : Pattern) : Prop :=
  ∀ cs n, p cs = some n → (cs.take n).getLast? ≠ some '\n'

theorem endsInline_of_forall {p : Pattern} (h : ∀ cs n, p cs = some n → '\n' ∉ cs.take n) :
    EndsInline p :=
  fun cs n hmatch hlast => h cs n hmatch (List.mem_of_getLast? hlast)

theorem take_of_literal {expected cs : List Char} {n : Nat} (h : literal expected cs = some n) :
    cs.take n = expected := by
  simp only [literal] at h
  split at h
  · rename_i hprefix
    obtain rfl := Option.some.inj h
    exact (List.prefix_iff_eq_take.mp (List.isPrefixOf_iff_prefix.mp hprefix)).symm
  · cases h

theorem literal_endsInline {expected : List Char} (h : '\n' ∉ expected) :
    EndsInline (literal expected) := by
  apply endsInline_of_forall
  intro cs n hmatch
  rwa [take_of_literal hmatch]

theorem word_endsInline {expected : List Char} (h : ∀ e ∈ expected, e.toLower.isAlpha = true) :
    EndsInline (word expected) := by
  apply endsInline_of_forall
  intro cs n hmatch hmem
  have halpha := Text.isAlpha_of_sameIgnoringCase h (word_eq_some hmatch).2 _ hmem
  exact absurd halpha (by decide)

theorem take_of_name {starts continues : Char → Bool} {cs : List Char} {n : Nat}
    (h : name starts continues cs = some n) :
    ∃ c rest, cs.take n = c :: rest ∧ starts c = true ∧ ∀ d ∈ rest, continues d = true := by
  cases cs with
  | nil => cases h
  | cons c rest =>
      simp only [name] at h
      split at h
      · rename_i hc
        obtain rfl := Option.some.inj h
        refine ⟨c, rest.takeWhile continues, ?_, hc, fun d hd => List.mem_takeWhile_imp hd⟩
        rw [Nat.add_comm, List.take_succ_cons, take_length_takeWhile]
      · cases h

theorem name_newline {starts continues : Char → Bool} (hstarts : starts '\n' = false)
    (hcontinues : continues '\n' = false) (cs : List Char) (n : Nat)
    (h : name starts continues cs = some n) : '\n' ∉ cs.take n := by
  obtain ⟨c, rest, htake, hc, hrest⟩ := take_of_name h
  rw [htake, List.mem_cons]
  rintro (rfl | hmem)
  · rw [hstarts] at hc
    cases hc
  · have hnewline := hrest _ hmem
    rw [hcontinues] at hnewline
    cases hnewline

theorem column_endsInline : EndsInline column := by
  apply endsInline_of_forall
  intro cs n hmatch
  unfold column at hmatch
  split at hmatch
  · obtain ⟨m, hm, rfl⟩ := Option.map_eq_some_iff.mp hmatch
    rw [List.take_succ_cons, List.mem_cons, not_or]
    exact ⟨by decide, name_newline (by decide) (by decide) _ m hm⟩
  · cases hmatch

/-- A quoted text ends with its quote. -/
theorem getLast?_of_quotedRest {quote : Char} {cs : List Char} {n : Nat}
    (h : quotedRest quote cs = some n) : (cs.take n).getLast? = some quote := by
  fun_induction quotedRest quote cs generalizing n with
  | case1 => cases h
  | case2 => cases h
  | case3 => cases h
  | case4 c rest hc ih =>
      obtain ⟨m, hm, rfl⟩ := Option.map_eq_some_iff.mp h
      rw [List.take_succ_cons, List.take_succ_cons, List.getLast?_cons_cons, List.getLast?_cons,
        ih hm]
      rfl
  | case5 rest _ =>
      obtain rfl := Option.some.inj h
      rfl
  | case6 c rest _ hc ih =>
      obtain ⟨m, hm, rfl⟩ := Option.map_eq_some_iff.mp h
      rw [List.take_succ_cons, List.getLast?_cons, ih hm]
      rfl

theorem string_endsInline : EndsInline string := by
  intro cs n hmatch
  cases cs with
  | nil => cases hmatch
  | cons c rest =>
      simp only [string] at hmatch
      split at hmatch
      · rename_i hquote
        obtain ⟨m, hm, rfl⟩ := Option.map_eq_some_iff.mp hmatch
        rw [List.take_succ_cons, List.getLast?_cons, getLast?_of_quotedRest hm]
        rintro hlast
        obtain rfl := Option.some.inj hlast
        exact absurd hquote (by decide)
      · cases hmatch

theorem take_of_block {cs : List Char} {n : Nat} (h : block cs = some n) :
    ∃ inner, cs.take n = '{' :: (inner ++ ['}']) := by
  obtain ⟨rest, m, rfl, hm, rfl⟩ := Block.eq_cons_of_length? h
  obtain ⟨inner, hinner⟩ := List.getLast?_eq_some_iff.mp (Block.getLast?_of_scan Nat.one_ne_zero hm)
  exact ⟨inner, by rw [List.take_succ_cons, hinner]⟩

theorem block_endsInline : EndsInline block := by
  intro cs n hmatch
  obtain ⟨inner, hinner⟩ := take_of_block hmatch
  rw [hinner, ← List.cons_append, List.getLast?_concat]
  decide

theorem endsInline_of_not_blank {p : Pattern}
    (h : ∀ cs n, p cs = some n → ∀ c ∈ cs.take n, Text.isBlank c = false) : EndsInline p := by
  apply endsInline_of_forall
  intro cs n hmatch hmem
  exact absurd (h cs n hmatch _ hmem) (by decide)

theorem all_endsInline : ∀ p ∈ all, p.1 ≠ .newline → EndsInline p.2 := by
  simp only [all, List.forall_mem_cons]
  refine ⟨fun h => absurd rfl h, ?_, ?_, ?_, ?_, ?_, ?_, ?_, ?_, ?_, ?_, ?_, ?_, ?_, ?_,
    List.forall_mem_nil _⟩ <;> intro _
  · exact literal_endsInline (by decide)
  · exact literal_endsInline (by decide)
  · exact literal_endsInline (by decide)
  · exact literal_endsInline (by decide)
  · exact literal_endsInline (by decide)
  · exact literal_endsInline (by decide)
  · exact word_endsInline (isAlpha_boolName true)
  · exact word_endsInline (isAlpha_boolName false)
  · exact column_endsInline
  · exact string_endsInline
  · exact endsInline_of_not_blank fun _ _ hmatch => (isNumber_of_number hmatch).not_blank
  · exact endsInline_of_not_blank fun _ _ hmatch => (isUnitLiteral_of_unitLiteral hmatch).not_blank
  · exact endsInline_of_forall (name_newline (by decide) (by decide))
  · exact block_endsInline

end Pattern

/-- Only newlines end with a newline. -/
theorem scan_endsInline {cs : List Char} {base : Nat} {ls : List Lexeme}
    (h : scan cs base = .ok ls) : ∀ l ∈ ls, l.kind ≠ .newline → l.text.getLast? ≠ some '\n' := by
  refine forall_of_scan (fun cs kind n start hlongest hkind => ?_) h
  obtain ⟨p, hmem, hmatch⟩ := Pattern.longest_mem hlongest
  exact Pattern.all_endsInline _ hmem hkind cs n hmatch

end RowRecipe.Lexeme
