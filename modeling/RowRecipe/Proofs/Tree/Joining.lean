import RowRecipe.Proofs.Tree.Readers

/-!
Trees of joined texts. A newline between two texts ends the last run of the first one, so the runs
of the whole are those of both, and each is read in the frame that the other text is to it. The tree
then has the children of both trees, those of the second one further along and further down.
-/

namespace RowRecipe

namespace Run

/-- The same run further along. -/
def moved (bytes : Nat) (run : Run) : Run :=
  ⟨run.lexemes.map (Lexeme.shift bytes), run.ending.moved bytes⟩

theorem split_moved (bytes endOffset : Nat) (current ls : List Lexeme) :
    split (endOffset + bytes) (current.map (Lexeme.shift bytes)) (ls.map (Lexeme.shift bytes)) =
      (split endOffset current ls).map (moved bytes) := by
  fun_induction split endOffset current ls with
  | case1 current hempty => simp_all [split]
  | case2 current hempty => simp_all [split, moved, Ending.moved]
  | case3 current l rest hl hempty ih => simp_all [split]
  | case4 current l rest hl hempty ih => simp_all [split, moved, Ending.moved]
  | case5 current l rest hl ih => simp_all [split]

/-- The lexemes of a run follow one another among those that were split. -/
theorem lexemes_infix {endOffset : Nat} {current ls : List Lexeme} :
    ∀ run ∈ split endOffset current ls, run.lexemes <:+: current ++ ls := by
  fun_induction split endOffset current ls with
  | case1 => exact List.forall_mem_nil _
  | case2 current =>
      exact List.forall_mem_singleton.mpr (List.prefix_append current []).isInfix
  | case3 current l rest _ _ ih =>
      intro run hrun
      have hrest : run.lexemes <:+: rest := ih run hrun
      rw [List.append_cons]
      exact hrest.trans (List.suffix_append _ rest).isInfix
  | case4 current l rest _ _ ih =>
      intro run hrun
      rcases List.mem_cons.mp hrun with rfl | hrun
      · exact (List.prefix_append current (l :: rest)).isInfix
      · have hrest : run.lexemes <:+: rest := ih run hrun
        rw [List.append_cons]
        exact hrest.trans (List.suffix_append _ rest).isInfix
  | case5 current l rest _ ih =>
      intro run hrun
      rw [← List.singleton_append, ← List.append_assoc]
      exact ih run hrun

/-- A run ends with the text or at one of the lexemes. -/
theorem ending_of_mem_split {endOffset : Nat} {current ls : List Lexeme} :
    ∀ run ∈ split endOffset current ls, run.ending = ⟨endOffset, none⟩ ∨
      ∃ l ∈ ls, run.ending = ⟨l.start, some l.kind⟩ := by
  fun_induction split endOffset current ls with
  | case1 => exact List.forall_mem_nil _
  | case2 => exact List.forall_mem_singleton.mpr (.inl rfl)
  | case3 current l rest _ _ ih =>
      intro run hrun
      exact (ih run hrun).imp_right (List.exists_mem_cons_of_exists ·)
  | case4 current l rest _ _ ih =>
      intro run hrun
      rcases List.mem_cons.mp hrun with rfl | hrun
      · exact .inr ⟨l, List.mem_cons_self, rfl⟩
      · exact (ih run hrun).imp_right (List.exists_mem_cons_of_exists ·)
  | case5 current l rest _ ih =>
      intro run hrun
      exact (ih run hrun).imp_right (List.exists_mem_cons_of_exists ·)

/-- A terminator ends the last run before it just as the end of the text does, but for what is found
there. -/
theorem split_append (terminator : Lexeme) (hterminator : terminator.kind.isTerminator = true)
    (endOffset endOffset' : Nat) (current ls more : List Lexeme) :
    ∃ runs, split endOffset' current (ls ++ terminator :: more) =
        runs ++ split endOffset' [] more ∧
      runs.map lexemes = (split endOffset current ls).map lexemes := by
  fun_induction split endOffset current ls with
  | case1 current hempty =>
      exact ⟨[], by simp [split, hterminator, hempty], rfl⟩
  | case2 current hempty =>
      refine ⟨[⟨current, ⟨terminator.start, some terminator.kind⟩⟩], ?_, rfl⟩
      simp [split, hterminator, hempty]
  | case3 current l rest hl hempty ih =>
      obtain ⟨runs, hruns, hlexemes⟩ := ih
      refine ⟨runs, ?_, hlexemes⟩
      simp only [List.cons_append, split, if_pos hl, if_pos hempty, hruns]
  | case4 current l rest hl hempty ih =>
      obtain ⟨runs, hruns, hlexemes⟩ := ih
      refine ⟨⟨current, ⟨l.start, some l.kind⟩⟩ :: runs, ?_, ?_⟩
      · simp only [List.cons_append, split, if_pos hl, if_neg hempty, hruns]
      · simp only [List.map_cons, hlexemes]
  | case5 current l rest hl ih =>
      obtain ⟨runs, hruns, hlexemes⟩ := ih
      refine ⟨runs, ?_, hlexemes⟩
      simp only [List.cons_append, split, if_neg hl, hruns]

end Run

/-- When what ends the lexemes is found in its new place, so is everything. -/
theorem Framed.eq_of_moved {α : Type} [Placed α] {f : Frame} {source : List Char}
    {ending : Ending} {result result' : Except GrammarFault α}
    (h : Framed f source ending (ending.moved f.bytes) result result') :
    result' = (result.map (Placed.moved f.bytes f.lines)).mapError
      (GrammarFault.moved f.bytes) := by
  cases result with
  | ok x => exact h.2
  | error fault =>
      obtain ⟨fault', rfl, hfault⟩ := h
      rw [hfault rfl]
      rfl

namespace Node

variable {f : Frame} {source : List Char}

/-- Runs with the same lexemes give the same nodes, whatever ends them, if they give any. -/
theorem ofRuns_around {runs : List Run} (hruns : ∀ run ∈ runs, Placed.LiesIn source run.lexemes)
    {runs' : List Run} (hlexemes : runs'.map Run.lexemes =
      runs.map fun run => Placed.moved f.bytes f.lines run.lexemes)
    {nodes : List Node} (h : runs.mapM (ofRun source) = .ok nodes) :
    runs'.mapM (ofRun (f.around source)) = .ok (Placed.moved f.bytes f.lines nodes) := by
  induction runs generalizing runs' nodes with
  | nil =>
      obtain rfl := List.map_eq_nil_iff.mp hlexemes
      obtain rfl := Except.ok.inj h
      rfl
  | cons run rest ih =>
      cases runs' with
      | nil => cases hlexemes
      | cons run' rest' =>
          obtain ⟨hrun, hrest⟩ := List.forall_mem_cons.mp hruns
          obtain ⟨ls, ending'⟩ := run'
          obtain ⟨hhead, htail⟩ := List.cons.inj hlexemes
          obtain rfl : ls = Placed.moved f.bytes f.lines run.lexemes := hhead
          rw [List.mapM_cons] at h ⊢
          cases hread : ofRun source run with
          | error fault =>
              rw [hread] at h
              cases h
          | ok node =>
              cases hmore : rest.mapM (ofRun source) with
              | error fault =>
                  rw [hread, hmore] at h
                  cases h
              | ok more =>
                  rw [hread, hmore] at h
                  obtain rfl := Except.ok.inj h
                  have hframed := ofRun_framed (f := f) ending' run hrun
                  rw [hread] at hframed
                  rw [hframed.2, ih hrest htail hmore]
                  rfl

/-- Runs further along give the nodes, or the fault, further along. -/
theorem ofRuns_moved {runs : List Run} (hruns : ∀ run ∈ runs, Placed.LiesIn source run.lexemes) :
    (runs.map (Run.moved f.bytes)).mapM (ofRun (f.around source)) =
      ((runs.mapM (ofRun source)).map (Placed.moved f.bytes f.lines)).mapError
        (GrammarFault.moved f.bytes) := by
  induction runs with
  | nil => rfl
  | cons run rest ih =>
      obtain ⟨hrun, hrest⟩ := List.forall_mem_cons.mp hruns
      have hread : ofRun (f.around source) (run.moved f.bytes) = _ :=
        (ofRun_framed (f := f) (run.ending.moved f.bytes) run hrun).eq_of_moved
      rw [List.map_cons, List.mapM_cons, List.mapM_cons, hread, ih hrest]
      cases ofRun source run with
      | error fault => rfl
      | ok node => cases rest.mapM (ofRun source) <;> rfl

/-- What the second text is in when a newline joins it to the first. -/
def followingFrame (first : List Char) : Frame :=
  ⟨first ++ ['\n'], [], Or.inr List.getLast?_concat⟩

/-- What the first text is in. -/
def leadingFrame (second : List Char) : Frame := ⟨[], '\n' :: second, Or.inl rfl⟩

theorem lexemes_lieIn {source : List Char} {ls : List Lexeme} (h : Lexeme.scan source 0 = .ok ls)
    (endOffset : Nat) :
    ∀ run ∈ Run.split endOffset [] ls, Placed.LiesIn source run.lexemes := by
  have hlies : ∀ l ∈ ls, l.LiesIn source :=
    Lexeme.liesIn_of_scan source [] [] ls (by rw [List.nil_append, List.append_nil]) h
  exact fun run hrun l hl => hlies l ((Run.lexemes_infix run hrun).subset hl)

/-- The lexemes of joined texts: those of the first, the newline, and those of the second. -/
theorem scan_joined {a : List Char} {ls : List Lexeme} (h : Lexeme.scan a 0 = .ok ls)
    (b : List Char) :
    Lexeme.scan (a ++ '\n' :: b) 0 =
      ((Lexeme.scan b 0).map fun more =>
          ls ++ ⟨.newline, ['\n'], Text.byteLength a⟩ ::
            more.map (Lexeme.shift (followingFrame a).bytes)).mapError
        (Lexeme.Failure.moved (followingFrame a).bytes) := by
  have hbytes : (followingFrame a).bytes = Text.byteLength a + 1 := Text.byteLength_append a ['\n']
  have hskip : Lexeme.skip? ('\n' :: b) = none := rfl
  have hfound : Lexeme.Pattern.longest ('\n' :: b) = some (.newline, 1) := rfl
  have hscan := Lexeme.scan_add (followingFrame a).bytes b 0
  rw [Nat.zero_add, hbytes] at hscan
  rw [Lexeme.scan_append_newline a b 0 ls h, Nat.zero_add, Lexeme.scan_of_found hskip hfound,
    List.drop_one, List.tail_cons, List.take_succ_cons, List.take_zero, hbytes]
  change ((Lexeme.scan b (Text.byteLength a + 1)).map _).map _ = _
  rw [hscan]
  cases Lexeme.scan b 0 <;> rfl

theorem around_following (a b : List Char) :
    (followingFrame a).around b = a ++ '\n' :: b := by
  rw [Frame.around, followingFrame, List.append_nil, List.append_assoc, List.singleton_append]

/-- A recipe has lexemes, and the children of its tree are what is read from their runs. -/
theorem ofSource_ok {source : List Char} {tree : Node} (h : ofSource source = .ok tree) :
    ∃ ls, Lexeme.scan source 0 = .ok ls ∧
      (Run.split (Text.byteLength source) [] ls).mapM (ofRun source) = .ok tree.children := by
  unfold ofSource at h
  cases hscan : Lexeme.scan source 0 with
  | error failure =>
      rw [hscan] at h
      cases h
  | ok ls =>
      refine ⟨ls, rfl, ?_⟩
      simp only [hscan] at h
      cases hread : (Run.split (Text.byteLength source) [] ls).mapM (ofRun source) with
      | error fault =>
          rw [hread] at h
          cases h
      | ok nodes =>
          rw [hread] at h
          obtain rfl := Except.ok.inj h
          rfl

/-- The runs of joined texts give the nodes of both. -/
theorem nodes_joined {a b : List Char} {ls more : List Lexeme} (hls : Lexeme.scan a 0 = .ok ls)
    (hmore : Lexeme.scan b 0 = .ok more) {nodes : List Node}
    (hnodes : (Run.split (Text.byteLength a) [] ls).mapM (ofRun a) = .ok nodes) :
    (Run.split (Text.byteLength (a ++ '\n' :: b)) []
        (ls ++ ⟨.newline, ['\n'], Text.byteLength a⟩ ::
          more.map (Lexeme.shift (followingFrame a).bytes))).mapM (ofRun (a ++ '\n' :: b)) =
      (((Run.split (Text.byteLength b) [] more).mapM (ofRun b)).map fun nodes' =>
          nodes ++ Placed.moved (followingFrame a).bytes (followingFrame a).lines nodes').mapError
        (GrammarFault.moved (followingFrame a).bytes) := by
  have hlength : Text.byteLength (a ++ '\n' :: b) =
      Text.byteLength b + (followingFrame a).bytes := by
    rw [← around_following, Frame.around, Text.byteLength_append, Text.byteLength_append,
      Nat.add_comm (Text.byteLength _) (Text.byteLength b)]
    rfl
  have hsplit := Run.split_moved (followingFrame a).bytes (Text.byteLength b) [] more
  rw [List.map_nil] at hsplit
  obtain ⟨runs, hruns, hlexemes⟩ := Run.split_append
    ⟨.newline, ['\n'], Text.byteLength a⟩ rfl (Text.byteLength a)
    (Text.byteLength (a ++ '\n' :: b)) [] ls (more.map (Lexeme.shift (followingFrame a).bytes))
  -- In front of the first text there is nothing, so it does not move.
  have hzero : ∀ run : Run, Placed.moved (leadingFrame b).bytes (leadingFrame b).lines
      run.lexemes = run.lexemes := fun run => List.map_id' _
  have hsame : runs.map Run.lexemes = (Run.split (Text.byteLength a) [] ls).map fun run =>
      Placed.moved (leadingFrame b).bytes (leadingFrame b).lines run.lexemes := by
    simp only [hlexemes, hzero]
  have hfirst := ofRuns_around (lexemes_lieIn hls _) hsame hnodes
  have hstays : Placed.moved (leadingFrame b).bytes (leadingFrame b).lines nodes = nodes :=
    (movedAll_eq_map 0 0 nodes).symm.trans (movedAll_zero nodes)
  rw [hstays] at hfirst
  have hsecond := ofRuns_moved (f := followingFrame a) (lexemes_lieIn hmore (Text.byteLength b))
  rw [around_following] at hsecond
  rw [hruns, List.mapM_append, hlength, hsplit, hsecond]
  change (runs.mapM (ofRun ((leadingFrame b).around a)) >>= _) = _
  rw [hfirst]
  cases (Run.split (Text.byteLength b) [] more).mapM (ofRun b) <;> rfl

/-- What the grammar makes of joined texts, if the first one by itself is a recipe: the children of
both trees, or the fault of the second one. -/
theorem children_joined {a : List Char} {tree : Node} (h : ofSource a = .ok tree)
    (b : List Char) :
    (ofSource (a ++ '\n' :: b)).map children =
      ((ofSource b).map fun more => tree.children ++
          Placed.moved (followingFrame a).bytes (followingFrame a).lines more.children).mapError
        (GrammarFault.moved (followingFrame a).bytes) := by
  obtain ⟨ls, hls, hnodes⟩ := ofSource_ok h
  rw [ofSource, scan_joined hls, ofSource]
  cases hmore : Lexeme.scan b 0 with
  | error failure => rfl
  | ok more =>
      have hjoined := nodes_joined hls hmore hnodes
      simp only [Except.map, Except.mapError, hjoined]
      cases (Run.split (Text.byteLength b) [] more).mapM (ofRun b) <;> rfl

end Node

/-- The same error further down. -/
def GrammarError.moved (lines : Nat) (e : GrammarError) : GrammarError :=
  { e with line := e.line + lines }

namespace Node

/-- A fault of the second text may lie behind its last character; nothing follows it there. -/
theorem placed_following (a b : List Char) (fault : GrammarFault) :
    placed (a ++ '\n' :: b) (fault.moved (followingFrame a).bytes) =
      (placed b fault).moved (followingFrame a).lines := by
  have hplace : Position.ofOffset ((followingFrame a).around b)
      (fault.offset + (followingFrame a).bytes) =
      (Position.ofOffset b fault.offset).moved (followingFrame a).bytes (followingFrame a).lines :=
    (followingFrame a).ofOffset_around (Or.inr rfl)
  rw [around_following] at hplace
  simp only [placed, GrammarFault.moved, hplace]
  rfl

theorem parse_joined {a : String} {tree : Node} (h : parse a = .ok tree) (b : String) :
    (parse (a ++ "\n" ++ b)).map children =
      ((parse b).map fun more => tree.children ++
          Placed.moved (followingFrame a.toList).bytes (followingFrame a.toList).lines
            more.children).mapError
        (GrammarError.moved (followingFrame a.toList).lines) := by
  have hsource : ofSource a.toList = .ok tree := by
    unfold parse at h
    cases hread : ofSource a.toList with
    | error fault =>
        rw [hread] at h
        cases h
    | ok read =>
        rw [hread] at h
        rw [Except.ok.inj h]
  have htext : (a ++ "\n" ++ b).toList = a.toList ++ '\n' :: b.toList := by
    simp only [String.toList_append, List.append_assoc]
    rfl
  have hjoined := children_joined hsource b.toList
  have hplaced := placed_following a.toList b.toList
  unfold parse
  rw [htext]
  cases hread : ofSource (a.toList ++ '\n' :: b.toList) <;> cases hmore : ofSource b.toList <;>
    simp_all [Except.map, Except.mapError]

end Node

end RowRecipe
