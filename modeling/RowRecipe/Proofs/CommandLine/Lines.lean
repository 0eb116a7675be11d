import RowRecipe.CommandLine.Execute
import RowRecipe.Proofs.Outcome
import RowRecipe.Proofs.Text.Rows

/-!
Lines of input and of output. The lines of an input that are not blank become rows, in their order, or
the first of them that cannot is found, with its number among all lines. Texts without newlines are
the lines of what is printed.
-/

namespace RowRecipe.CommandLine

/-- The text is made of these lines. Each ends at a newline, to which a carriage return in front of it
belongs, or with the text. -/
inductive IsLines : List Char → List (List Char) → Prop
  | none : IsLines [] []
  | last {line : List Char} (hsome : line ≠ []) (hline : '\n' ∉ line) : IsLines line [line]
  | newline {line rest : List Char} {more : List (List Char)} (hline : '\n' ∉ line)
      (hreturn : line.getLast? ≠ some '\r') (h : IsLines rest more) :
      IsLines (line ++ '\n' :: rest) (line :: more)
  | returned {line rest : List Char} {more : List (List Char)} (hline : '\n' ∉ line)
      (h : IsLines rest more) : IsLines (line ++ '\r' :: '\n' :: rest) (line :: more)

/-- Puts a character in front of the first line. -/
def onFirst (c : Char) : List (List Char) → List (List Char)
  | [] => [[c]]
  | line :: more => (c :: line) :: more

/-- The character ends no line, not even together with a newline behind it. -/
def Continues (c : Char) (rest : List Char) : Prop :=
  c ≠ '\n' ∧ ¬ (c = '\r' ∧ rest.head? = some '\n')

theorem Continues.of_ne {c : Char} {rest : List Char} (hnewline : c ≠ '\n')
    (hreturn : ∀ more, c = '\r' → rest ≠ '\n' :: more) : Continues c rest := by
  refine ⟨hnewline, ?_⟩
  rintro ⟨hc, hhead⟩
  obtain ⟨more, hmore⟩ := List.head?_eq_some_iff.mp hhead
  exact hreturn more hc hmore

theorem lines_cons {c : Char} {rest : List Char} (h : Continues c rest) :
    lines (c :: rest) = onFirst c (lines rest) := by
  obtain ⟨hnewline, hreturn⟩ := h
  rw [lines.eq_def]
  split
  · rename_i heq
    cases heq
  · rename_i heq
    cases heq
    exact absurd rfl hnewline
  · rename_i heq
    cases heq
    exact absurd ⟨rfl, rfl⟩ hreturn
  · rename_i heq
    cases heq
    rfl

/-- A line that goes on over a text ends where the text does, before its newline. -/
theorem lines_append {line rest : List Char} {more : List (List Char)} (hline : '\n' ∉ line)
    (hreturn : line.getLast? = some '\r' → rest.head? ≠ some '\n')
    (h : lines rest = [] :: more) : lines (line ++ rest) = line :: more := by
  induction line with
  | nil => exact h
  | cons c line ih =>
      rw [List.mem_cons, not_or] at hline
      have hrest : lines (line ++ rest) = line :: more := by
        refine ih hline.2 fun hlast => hreturn ?_
        cases line with
        | nil => cases hlast
        | cons d line => rwa [List.getLast?_cons_cons]
      have hcontinues : Continues c (line ++ rest) := by
        refine ⟨Ne.symm hline.1, ?_⟩
        rintro ⟨rfl, hhead⟩
        cases line with
        | nil => exact hreturn rfl hhead
        | cons d line =>
            have hd : d = '\n' := Option.some.inj hhead
            exact hline.2 (hd ▸ List.mem_cons_self)
      rw [List.cons_append, lines_cons hcontinues, hrest]
      rfl

theorem lines_row {line : List Char} (hsome : line ≠ []) (hline : '\n' ∉ line) :
    lines line = [line] := by
  induction line with
  | nil => exact absurd rfl hsome
  | cons c line ih =>
      rw [List.mem_cons, not_or] at hline
      have hcontinues : Continues c line := by
        refine ⟨Ne.symm hline.1, fun h => hline.2 (List.mem_of_mem_head? h.2)⟩
      rw [lines_cons hcontinues]
      by_cases hnone : line = []
      · rw [hnone]
        rfl
      · rw [ih hnone hline.2]
        rfl

theorem lines_of_isLines {cs : List Char} {all : List (List Char)} (h : IsLines cs all) :
    lines cs = all := by
  induction h with
  | none => rfl
  | last hsome hline => exact lines_row hsome hline
  | @newline line rest more hline hreturn h ih =>
      refine lines_append hline (fun hlast => absurd hlast hreturn) ?_
      rw [lines.eq_def]
      exact congrArg ([] :: ·) ih
  | @returned line rest more hline h ih =>
      refine lines_append hline (fun _ => by simp) ?_
      rw [lines.eq_def]
      exact congrArg ([] :: ·) ih

theorem IsLines.onFirst {c : Char} {rest : List Char} {all : List (List Char)}
    (h : IsLines rest all) (hcontinues : Continues c rest) :
    IsLines (c :: rest) (onFirst c all) := by
  obtain ⟨hnewline, hreturn⟩ := hcontinues
  have hcons {line : List Char} (hline : '\n' ∉ line) : '\n' ∉ c :: line := by
    rw [List.mem_cons, not_or]
    exact ⟨Ne.symm hnewline, hline⟩
  cases h with
  | none => exact .last (List.cons_ne_nil _ _) (hcons List.not_mem_nil)
  | last hsome hline => exact .last (List.cons_ne_nil _ _) (hcons hline)
  | @newline line rest more hline hlast h =>
      refine @IsLines.newline (c :: line) _ _ (hcons hline) ?_ h
      cases line with
      | nil => exact fun hc => hreturn ⟨Option.some.inj hc, rfl⟩
      | cons d line => rwa [List.getLast?_cons_cons]
  | returned hline h => exact @IsLines.returned (c :: _) _ _ (hcons hline) h

/-- Lines are found as a text is made of them, in the one way in which it is. -/
theorem isLines_iff {cs : List Char} {all : List (List Char)} : IsLines cs all ↔ lines cs = all := by
  refine ⟨lines_of_isLines, ?_⟩
  rintro rfl
  fun_induction lines cs with
  | case1 => exact .none
  | case2 rest ih => exact @IsLines.newline [] _ _ List.not_mem_nil (by simp) ih
  | case3 rest ih => exact @IsLines.returned [] _ _ List.not_mem_nil ih
  | case4 c rest hnewline hreturn hnone ih =>
      rw [hnone] at ih
      exact ih.onFirst (.of_ne hnewline hreturn)
  | case5 c rest hnewline hreturn line more hsome ih =>
      rw [hsome] at ih
      exact ih.onFirst (.of_ne hnewline hreturn)

/-- A JSON object stands on the line, with these members. -/
def WritesObject (here : Surroundings) (line : List Char) (members : List (String × Json)) : Prop :=
  here.readJson (String.ofList line) = .ok (.object members)

/-- The lines of a text that are not blank write these rows, one on each, in their order. -/
def WritesRows (here : Surroundings) (text : String) (rows : List Row) : Prop :=
  ∃ all, IsLines text.toList all ∧
    List.Forall₂ (fun line row => ∃ members, WritesObject here line members ∧
        row = .ofList (members.map fun m => (m.1, Cell.ofJson m.2)))
      (all.filter fun line => !line.all Text.isBlank) rows

/-- The line of this number, counted from one, is the first of a text that is neither blank nor an
object. -/
def FirstFault (here : Surroundings) (text : String) (number : Nat) : Prop :=
  ∃ before line after, IsLines text.toList (before ++ line :: after) ∧
    number = before.length + 1 ∧
    (∀ l ∈ before, l.all Text.isBlank ∨ ∃ members, WritesObject here l members) ∧
    ¬ line.all Text.isBlank ∧ ∀ members, ¬ WritesObject here line members

variable {here : Surroundings}

/-- The row of an object: its members become cells, in their order. -/
theorem rowOfLine_eq_ok {line : List Char} {row : Row} :
    rowOfLine here (String.ofList line) = .ok row ↔
      ∃ members, WritesObject here line members ∧
        row = .ofList (members.map fun m => (m.1, Cell.ofJson m.2)) := by
  unfold rowOfLine WritesObject
  cases here.readJson (String.ofList line) with
  | error detail => simp
  | ok json =>
      rw [Outcome.mapError_eq_ok]
      cases json <;> simp [Row.ofJson, eq_comm]

/-- A line is no row if no object stands on it. -/
theorem rowOfLine_eq_error {line : List Char} (h : ∀ members, ¬ WritesObject here line members) :
    ∃ fault, rowOfLine here (String.ofList line) = .error fault := by
  cases hrow : rowOfLine here (String.ofList line) with
  | error fault => exact ⟨fault, rfl⟩
  | ok row =>
      obtain ⟨members, hmembers, -⟩ := rowOfLine_eq_ok.mp hrow
      exact absurd hmembers (h members)

section Steps

variable {number : Nat} {line : List Char} {rest : List (List Char)}

theorem rowsOfLines_of_blank (h : line.all Text.isBlank) :
    rowsOfLines here number (line :: rest) = rowsOfLines here (number + 1) rest :=
  if_pos h

theorem rowsOfLines_of_error (h : ¬ line.all Text.isBlank) {fault : LineFault}
    (hrow : rowOfLine here (String.ofList line) = .error fault) :
    rowsOfLines here number (line :: rest) = .error (number, fault) := by
  rw [rowsOfLines, if_neg h, hrow]

theorem rowsOfLines_of_ok (h : ¬ line.all Text.isBlank) {row : Row}
    (hrow : rowOfLine here (String.ofList line) = .ok row) :
    rowsOfLines here number (line :: rest) = (rowsOfLines here (number + 1) rest).map (row :: ·) := by
  rw [rowsOfLines, if_neg h, hrow]

end Steps

/-- Rows come from the lines that are not blank, one from each, in their order. -/
theorem rowsOfLines_eq_ok {number : Nat} {lines : List (List Char)} {rows : List Row}
    (h : rowsOfLines here number lines = .ok rows) :
    List.Forall₂ (fun line row => rowOfLine here (String.ofList line) = .ok row)
      (lines.filter fun line => !line.all Text.isBlank) rows := by
  induction lines generalizing number rows with
  | nil =>
      cases h
      exact .nil
  | cons line rest ih =>
      by_cases hblank : line.all Text.isBlank
      · rw [rowsOfLines_of_blank hblank] at h
        rw [List.filter_cons_of_neg (by rw [hblank]; decide)]
        exact ih h
      · rw [List.filter_cons_of_pos (by rw [Bool.eq_false_iff.mpr hblank]; decide)]
        cases hrow : rowOfLine here (String.ofList line) with
        | error fault =>
            rw [rowsOfLines_of_error hblank hrow] at h
            cases h
        | ok row =>
            rw [rowsOfLines_of_ok hblank hrow] at h
            obtain ⟨more, hmore, rfl⟩ := Outcome.map_eq_ok.mp h
            exact .cons hrow (ih hmore)

/-- Lines that are blank or rows do not keep a line behind them from being the one that is none. -/
theorem rowsOfLines_eq_error {number : Nat} {before after : List (List Char)} {line : List Char}
    {fault : LineFault} (hbefore : ∀ l ∈ before, l.all Text.isBlank ∨ ∃ members, WritesObject here l members)
    (hline : ¬ line.all Text.isBlank) (hfault : rowOfLine here (String.ofList line) = .error fault) :
    rowsOfLines here number (before ++ line :: after) = .error (number + before.length, fault) := by
  induction before generalizing number with
  | nil => exact rowsOfLines_of_error hline hfault
  | cons first rest ih =>
      obtain ⟨hfirst, hrest⟩ := List.forall_mem_cons.mp hbefore
      have hlater : rowsOfLines here (number + 1) (rest ++ line :: after) =
          .error (number + (rest.length + 1), fault) := by
        rw [ih hrest, Nat.add_assoc, Nat.add_comm 1]
      rw [List.cons_append, List.length_cons]
      by_cases hblank : first.all Text.isBlank
      · rw [rowsOfLines_of_blank hblank, hlater]
      · obtain ⟨members, hmembers⟩ := hfirst.resolve_left hblank
        have hrow := rowOfLine_eq_ok.mpr ⟨members, hmembers, rfl⟩
        rw [rowsOfLines_of_ok hblank hrow, hlater]
        rfl

theorem rowsOfText_eq_ok {text : String} {rows : List Row} (h : rowsOfText here text = .ok rows) :
    WritesRows here text rows :=
  ⟨lines text.toList, isLines_iff.mpr rfl,
    (rowsOfLines_eq_ok h).imp fun _ _ hrow => rowOfLine_eq_ok.mp hrow⟩

theorem rowsOfText_eq_error {text : String} {number : Nat} (h : FirstFault here text number) :
    ∃ fault, rowsOfText here text = .error (number, fault) := by
  obtain ⟨before, line, after, hlines, rfl, hbefore, hline, hnone⟩ := h
  obtain ⟨fault, hfault⟩ := rowOfLine_eq_error hnone
  refine ⟨fault, ?_⟩
  rw [rowsOfText, lines_of_isLines hlines, rowsOfLines_eq_error hbefore hline hfault, Nat.add_comm]

/-- Texts without newlines are the lines of their text; behind the last newline nothing follows. -/
theorem rows_joinLines {texts : List String} (h : ∀ text ∈ texts, '\n' ∉ text.toList) :
    Text.rows (joinLines texts).toList = texts.map String.toList ++ [[]] := by
  induction texts with
  | nil => rfl
  | cons text rest ih =>
      obtain ⟨htext, hrest⟩ := List.forall_mem_cons.mp h
      have hjoin : (joinLines (text :: rest)).toList =
          text.toList ++ '\n' :: (joinLines rest).toList := by
        simp [joinLines]
      have hrows : Text.rows ('\n' :: (joinLines rest).toList) =
          [] :: Text.rows (joinLines rest).toList := Text.rows_cons _ _
      rw [hjoin, Text.rows_append_row htext, hrows, ih hrest, List.modifyHead_cons,
        List.append_nil, List.map_cons, List.cons_append]

end RowRecipe.CommandLine
