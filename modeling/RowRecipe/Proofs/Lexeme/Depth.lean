import RowRecipe.Proofs.Lexeme.Blocks
import RowRecipe.Proofs.Text.Offsets

/-!
How deep a text stands in a block. Of what follows an opening brace, only the braces outside of quoted
sections count, and the block ends where as many of them were closed as are open. A scan that keeps
count finds that place, if there is one, and its counter is positive all the way there.
-/

namespace RowRecipe.Lexeme.Block

variable {text bare inner more : List Char} {quote : Char} {d k n : Nat} {s : State}

/-- The text ends outside of quoted sections, and `bare` is what stands outside of them. -/
inductive Outside : List Char → List Char → Prop
  | nil : Outside [] []
  | plain {text bare : List Char} {c : Char} (h : Outside text bare) (hquote : isQuote c = false) :
      Outside (text ++ [c]) (bare ++ [c])
  | quoted {text bare inner : List Char} {quote : Char} (h : Outside text bare)
      (hquote : isQuote quote = true) (hinner : Section quote inner) :
      Outside (text ++ quote :: (inner ++ [quote])) bare

/-- The text ends in a section that its quote has not ended yet, maybe right behind a backslash. -/
inductive Inside (quote : Char) : List Char → List Char → Prop
  | begun {text bare inner : List Char} (h : Outside text bare) (hquote : isQuote quote = true)
      (hinner : Section quote inner) : Inside quote (text ++ quote :: inner) bare
  | protecting {text bare inner : List Char} (h : Outside text bare) (hquote : isQuote quote = true)
      (hinner : Section quote inner) : Inside quote (text ++ quote :: (inner ++ ['\\'])) bare

/-- The text without its quoted sections, whether the last of them has ended or not. -/
def Bare (text bare : List Char) : Prop := Outside text bare ∨ ∃ quote, Inside quote text bare

/-- So many braces are open behind the text, with the one in front of it: those opened outside of
sections less those closed there. -/
def Depth (text : List Char) (depth : Int) : Prop :=
  ∃ bare, Bare text bare ∧ depth = 1 + bare.count '{' - bare.count '}'

theorem Section.append (h : Section quote inner) (hmore : Section quote more) :
    Section quote (inner ++ more) := by
  induction h with
  | nil => exact hmore
  | plain hquote hbackslash _ ih => exact .plain hquote hbackslash ih
  | pair c _ ih => exact .pair c ih

/-- Every text can be read as to its sections. -/
theorem exists_bare (text : List Char) : ∃ bare, Bare text bare := by
  induction text using List.reverseRecOn with
  | nil => exact ⟨[], .inl .nil⟩
  | append_singleton text c ih =>
      obtain ⟨bare, houtside | ⟨quote, hinside⟩⟩ := ih
      · cases hquote : isQuote c with
        | false => exact ⟨bare ++ [c], .inl (houtside.plain hquote)⟩
        | true => exact ⟨bare, .inr ⟨c, .begun houtside hquote .nil⟩⟩
      · cases hinside with
        | @begun text bare inner houtside hquote hinner =>
            rw [List.append_assoc, List.cons_append]
            by_cases hc : c = quote
            · subst hc
              exact ⟨bare, .inl (houtside.quoted hquote hinner)⟩
            · by_cases hbackslash : c = '\\'
              · subst hbackslash
                exact ⟨bare, .inr ⟨quote, .protecting houtside hquote hinner⟩⟩
              · have hplain := hinner.append (.plain hc hbackslash .nil)
                exact ⟨bare, .inr ⟨quote, .begun houtside hquote hplain⟩⟩
        | @protecting text bare inner houtside hquote hinner =>
            have hpair := hinner.append (.pair c .nil)
            rw [List.append_assoc, List.cons_append, List.append_assoc, List.singleton_append]
            exact ⟨bare, .inr ⟨quote, .begun houtside hquote hpair⟩⟩

/-- The scan after some characters. -/
def State.after (s : State) (text : List Char) : State := text.foldl State.step s

theorem State.after_append (s : State) (text more : List Char) :
    s.after (text ++ more) = (s.after text).after more :=
  List.foldl_append

theorem State.after_section (h : Section quote inner) (d : Nat) :
    State.after ⟨d, some (quote, false)⟩ inner = ⟨d, some (quote, false)⟩ := by
  induction h with
  | nil => rfl
  | plain hquote hbackslash _ ih =>
      rw [after, List.foldl_cons, step]
      simp only [if_neg hbackslash, if_neg hquote]
      exact ih
  | pair c _ ih => exact ih

theorem State.step_quote (hquote : isQuote quote = true) (d : Nat) :
    State.step ⟨d, none⟩ quote = ⟨d, some (quote, false)⟩ := by
  simp only [step, hquote, if_true]

theorem State.step_unquote (hquote : isQuote quote = true) (d : Nat) :
    State.step ⟨d, some (quote, false)⟩ quote = ⟨d, none⟩ := by
  simp only [step, if_neg (quote_ne_backslash hquote), if_true]

/-- A counter that is high enough counts the braces outside of sections. -/
theorem Outside.after (h : Outside text bare) (hd : bare.count '}' ≤ d) :
    State.after ⟨d, none⟩ text = ⟨d + bare.count '{' - bare.count '}', none⟩ := by
  induction h with
  | nil => rfl
  | @plain text bare c _ hquote ih =>
      rw [List.count_append] at hd
      rw [State.after_append, ih (by omega), List.count_append, List.count_append]
      by_cases hopen : c = '{'
      · subst hopen
        simp [State.after, State.step, isQuote]
        omega
      · by_cases hclose : c = '}'
        · subst hclose
          simp [State.after, State.step, isQuote]
          omega
        · simp [State.after, State.step, hquote, hopen, hclose]
  | @quoted text bare inner quote _ hquote hinner ih =>
      have hbegin : State.after ⟨d, none⟩ (text ++ [quote]) =
          ⟨d + bare.count '{' - bare.count '}', some (quote, false)⟩ := by
        rw [State.after_append, ih hd]
        exact State.step_quote hquote _
      rw [← List.singleton_append, ← List.append_assoc, State.after_append, hbegin, State.after_append,
        State.after_section hinner]
      exact State.step_unquote hquote _

theorem Inside.after (h : Inside quote text bare) (hd : bare.count '}' ≤ d) :
    ∃ protecting, State.after ⟨d, none⟩ text =
      ⟨d + bare.count '{' - bare.count '}', some (quote, protecting)⟩ := by
  have hbegin : ∀ {text inner : List Char}, Outside text bare → isQuote quote = true →
      Section quote inner → State.after ⟨d, none⟩ (text ++ quote :: inner) =
        ⟨d + bare.count '{' - bare.count '}', some (quote, false)⟩ := by
    intro text inner houtside hquote hinner
    rw [State.after_append, houtside.after hd, State.after, List.foldl_cons, State.step_quote hquote]
    exact State.after_section hinner _
  cases h with
  | begun houtside hquote hinner => exact ⟨false, hbegin houtside hquote hinner⟩
  | protecting houtside hquote hinner =>
      refine ⟨true, ?_⟩
      rw [← List.cons_append, ← List.append_assoc, State.after_append, hbegin houtside hquote hinner]
      rfl

theorem Bare.depth_after (h : Bare text bare) (hd : bare.count '}' ≤ d) :
    (State.after ⟨d, none⟩ text).depth = d + bare.count '{' - bare.count '}' := by
  obtain houtside | ⟨quote, hinside⟩ := h
  · rw [houtside.after hd]
  · obtain ⟨protecting, hafter⟩ := hinside.after hd
    rw [hafter]

/-- A text has one depth, however it is read. -/
theorem existsUnique_depth (text : List Char) : ∃! depth, Depth text depth := by
  obtain ⟨bare, hbare⟩ := exists_bare text
  refine ⟨_, ⟨bare, hbare, rfl⟩, ?_⟩
  rintro depth ⟨bare', hbare', rfl⟩
  -- both readings say what a scan counts that starts high enough for either
  have hcount := hbare.depth_after (d := bare.count '}' + bare'.count '}') (by omega)
  rw [hbare'.depth_after (by omega)] at hcount
  omega

/-- While some brace is open, a step does the same from a higher count. -/
theorem State.step_add (hs : s.depth ≠ 0) (k : Nat) (c : Char) :
    State.step ⟨s.depth + k, s.quote⟩ c = ⟨(s.step c).depth + k, (s.step c).quote⟩ := by
  obtain ⟨depth, quote⟩ := s
  simp only [step]
  split
  · rfl
  · split
    · rfl
    · split <;> rfl
  · split
    · rfl
    · split
      · simp only [State.mk.injEq, and_true]
        omega
      · split
        · simp only [State.mk.injEq, and_true] at hs ⊢
          omega
        · rfl

theorem State.after_add (hopen : ∀ p, p <+: text → p ≠ text → (s.after p).depth ≠ 0) (k : Nat) :
    State.after ⟨s.depth + k, s.quote⟩ text = ⟨(s.after text).depth + k, (s.after text).quote⟩ := by
  induction text generalizing s with
  | nil => rfl
  | cons c text ih =>
      have hs := hopen [] List.nil_prefix (List.cons_ne_nil c text).symm
      have hnext : ∀ p, p <+: text → p ≠ text → ((s.step c).after p).depth ≠ 0 := fun p hp hne =>
        hopen (c :: p) ((List.prefix_cons_inj c).mpr hp) (by simpa using hne)
      rw [after, List.foldl_cons, step_add (s := s) hs]
      exact ih hnext

/-- While the counter is positive it is the depth. -/
theorem depth_counter (hopen : ∀ p, p <+: text → p ≠ text → (State.after ⟨1, none⟩ p).depth ≠ 0) :
    Depth text (State.after ⟨1, none⟩ text).depth := by
  obtain ⟨bare, hbare⟩ := exists_bare text
  refine ⟨bare, hbare, ?_⟩
  have hcount := hbare.depth_after (d := 1 + bare.count '}') (by omega)
  rw [State.after_add (s := ⟨1, none⟩) hopen] at hcount
  simp only at hcount
  omega

theorem after_take_of_scan (h : scan s cs = some n) : (s.after (cs.take n)).depth = 0 := by
  induction cs generalizing s n with
  | nil => cases h
  | cons c rest ih =>
      obtain ⟨hclosed, rfl⟩ | ⟨-, m, hm, rfl⟩ := scan_cons_eq_some.mp h
      · exact hclosed
      · exact ih hm

theorem after_ne_zero_of_scan (hs : s.depth ≠ 0) (h : scan s cs = none) (htext : text <+: cs) :
    (s.after text).depth ≠ 0 := by
  induction cs generalizing s text with
  | nil =>
      rw [List.prefix_nil.mp htext]
      exact hs
  | cons c rest ih =>
      obtain ⟨hopen, hrest⟩ := scan_cons_eq_none.mp h
      obtain rfl | ⟨more, rfl, hmore⟩ := List.prefix_cons_iff.mp htext
      · exact hs
      · exact ih (s := s.step c) hopen hrest hmore

/-- In front of where a scan ends it has not ended. -/
theorem scan_eq_none_of_shorter (htext : text <+: cs)
    (hbefore : ∀ n, scan s cs = some n → text.length < n) : scan s text = none := by
  obtain ⟨more, rfl⟩ := htext
  cases hscan : scan s text with
  | none => rfl
  | some m =>
      have hlt := hbefore m (scan_append s text more m hscan)
      have hle := (scan_bounds s text m hscan).2
      omega

/-- A scan that has not ended goes on from the state that it has reached. -/
theorem scan_append_of_none (h : scan s text = none) (more : List Char) :
    scan s (text ++ more) = (scan (s.after text) more).map (· + text.length) := by
  induction text generalizing s with
  | nil =>
      change scan s more = (scan s more).map (· + 0)
      cases scan s more <;> rfl
  | cons c text ih =>
      obtain ⟨hopen, hrest⟩ := scan_cons_eq_none.mp h
      rw [List.cons_append, scan_cons hopen, ih hrest, Option.map_map]
      rfl

/-- As long as the scan has not ended, its counter is positive and is the depth. -/
theorem depth_of_scan_eq_none (h : scan ⟨1, none⟩ text = none) :
    0 < (State.after ⟨1, none⟩ text).depth ∧ Depth text (State.after ⟨1, none⟩ text).depth := by
  have hopen : ∀ p, p <+: text → (State.after ⟨1, none⟩ p).depth ≠ 0 := fun p hp =>
    after_ne_zero_of_scan (s := ⟨1, none⟩) Nat.one_ne_zero h hp
  exact ⟨Nat.pos_of_ne_zero (hopen text List.prefix_rfl), depth_counter fun p hp _ => hopen p hp⟩

/-- The text ends in the brace that closes the one in front of it. -/
def Closing (text : List Char) : Prop := ∃ inner, Balanced inner ∧ text = inner ++ ['}']

theorem scan_of_closing (h : Closing text) (htext : text <+: cs) :
    scan ⟨1, none⟩ cs = some text.length := by
  obtain ⟨inner, hinner, rfl⟩ := h
  obtain ⟨more, rfl⟩ := htext
  rw [List.append_assoc, scan_balanced hinner 0, List.singleton_append, scan_close, scanBehind,
    List.length_append, Option.map_some, Option.map_some, Nat.zero_add, Nat.add_comm]
  rfl

/-- The block that was opened in front of the text ends behind its first `n` characters: `inner` and
the closing brace. Nothing shorter closes it. -/
structure ClosedAt (cs : List Char) (n : Nat) : Prop where
  closing : Closing (cs.take n)
  shortest : ∀ text, text <+: cs → Closing text → n ≤ text.length
  depth : Depth (cs.take n) 0
  isCut : ∃ inner, cs.take n = inner ++ ['}'] ∧ Text.IsCut cs (Text.byteLength inner + 1)

theorem closedAt_of_scan (h : scan ⟨1, none⟩ cs = some n) : ClosedAt cs n := by
  obtain ⟨inner, rest, m, hinner, rfl, hm, rfl⟩ := exists_balanced h
  obtain rfl := Option.some.inj hm
  have htake : (inner ++ '}' :: rest).take (inner.length + 1) = inner ++ ['}'] := by
    simp [List.take_append]
  refine ⟨⟨inner, hinner, htake⟩, fun text htext hclosing => ?_, ?_, inner, htake, inner ++ ['}'], rest,
    by simp, (Text.byteLength_append inner ['}']).symm⟩
  · exact (Option.some.inj (h.symm.trans (scan_of_closing hclosing htext))).le
  · have hopen : ∀ p, p <+: inner ++ ['}'] → p ≠ inner ++ ['}'] →
        (State.after ⟨1, none⟩ p).depth ≠ 0 := by
      intro p hp hne
      have hlt := hp.length_le.lt_of_ne fun heq => hne (hp.eq_of_length heq)
      rw [List.length_append, List.length_singleton] at hlt
      have hcs : p <+: inner ++ '}' :: rest := hp.trans ⟨rest, by simp⟩
      have hnone : scan ⟨1, none⟩ p = none := scan_eq_none_of_shorter hcs fun k hk =>
        hlt.trans_le (Option.some.inj (h.symm.trans hk)).le
      exact (depth_of_scan_eq_none hnone).1.ne'
    have hzero := after_take_of_scan h
    have hcounter := depth_counter hopen
    rw [Nat.add_zero, htake] at hzero
    rwa [hzero, ← htake] at hcounter

/-- A section that nothing ends keeps the block open. -/
theorem scan_eq_none_of_unended (hbefore : scan ⟨1, none⟩ text = none) (hplain : Outside text bare)
    (hquote : isQuote quote = true)
    (hunended : ∀ inner, Section quote inner → ¬ inner ++ [quote] <+: more) :
    scan ⟨1, none⟩ (text ++ quote :: more) = none := by
  have hopen : ∀ p, p <+: text → (State.after ⟨1, none⟩ p).depth ≠ 0 := fun p hp =>
    after_ne_zero_of_scan (s := ⟨1, none⟩) Nat.one_ne_zero hbefore hp
  obtain ⟨d, hd⟩ : ∃ d, State.after ⟨1, none⟩ text = ⟨d + 1, none⟩ := by
    have hhigh := hplain.after (d := 1 + bare.count '}') (by omega)
    rw [State.after_add (s := ⟨1, none⟩) fun p hp _ => hopen p hp] at hhigh
    obtain ⟨d, hd⟩ := Nat.exists_eq_add_one_of_ne_zero (hopen text List.prefix_rfl)
    exact ⟨d, congrArg₂ State.mk hd (State.mk.inj hhigh).2⟩
  rw [scan_append_of_none hbefore, hd, scan_quote d more hquote, Option.map_map,
    Option.map_eq_none_iff]
  cases hscan : scan ⟨d + 1, some (quote, false)⟩ more with
  | none => rfl
  | some n =>
      obtain ⟨inner, rest, -, hinner, rfl, -, -⟩ := exists_section (quote_ne_backslash hquote) hscan
      exact absurd ⟨rest, by simp⟩ (hunended inner hinner)

/-- Behind an opening brace, a scan is exact. Every text has one depth. The scan ends where the block
is closed, at the first place where the depth is zero, and it ends if there is such a place; up to
there its counter is positive and is the depth. It does not end in a section that nothing ends. -/
theorem scan_exact (cs : List Char) :
    (∀ text, ∃! depth, Depth text depth) ∧
    ((∃ n, scan ⟨1, none⟩ cs = some n) ↔ ∃ text, text <+: cs ∧ Closing text) ∧
    (∀ n, scan ⟨1, none⟩ cs = some n → ClosedAt cs n) ∧
    (∀ text, text <+: cs → (∀ n, scan ⟨1, none⟩ cs = some n → text.length < n) →
      0 < (State.after ⟨1, none⟩ text).depth ∧ Depth text (State.after ⟨1, none⟩ text).depth) ∧
    (scan ⟨1, none⟩ cs = none ↔ ∀ text, text <+: cs → ∃ depth, 0 < depth ∧ Depth text depth) ∧
    ∀ text quote more bare, cs = text ++ quote :: more → Outside text bare →
      scan ⟨1, none⟩ text = none → isQuote quote = true →
      (∀ inner, Section quote inner → ¬ inner ++ [quote] <+: more) → scan ⟨1, none⟩ cs = none := by
  have hcounts : ∀ text, text <+: cs → (∀ n, scan ⟨1, none⟩ cs = some n → text.length < n) →
      0 < (State.after ⟨1, none⟩ text).depth ∧ Depth text (State.after ⟨1, none⟩ text).depth :=
    fun text htext hbefore => depth_of_scan_eq_none (scan_eq_none_of_shorter htext hbefore)
  refine ⟨existsUnique_depth, ⟨?_, ?_⟩, fun n h => closedAt_of_scan h, hcounts, ⟨?_, ?_⟩, ?_⟩
  · rintro ⟨n, h⟩
    exact ⟨cs.take n, List.take_prefix n cs, (closedAt_of_scan h).closing⟩
  · rintro ⟨text, htext, hclosing⟩
    exact ⟨text.length, scan_of_closing hclosing htext⟩
  · intro h text htext
    obtain ⟨hpos, hdepth⟩ := hcounts text htext fun n hn => by rw [h] at hn; cases hn
    exact ⟨_, Int.natCast_pos.mpr hpos, hdepth⟩
  · intro h
    cases hscan : scan ⟨1, none⟩ cs with
    | none => rfl
    | some n =>
        obtain ⟨depth, hpos, hdepth⟩ := h (cs.take n) (List.take_prefix n cs)
        have hzero := (existsUnique_depth _).unique hdepth (closedAt_of_scan hscan).depth
        omega
  · rintro text quote more bare rfl hplain hbefore hquote hunended
    exact scan_eq_none_of_unended hbefore hplain hquote hunended

end RowRecipe.Lexeme.Block
