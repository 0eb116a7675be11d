import RowRecipe.Proofs.AggregateStats.Machine
import RowRecipe.Proofs.Pipeline.Batches

/-!
The answer of a run does not depend on how its rows are cut into batches, nor on their order. Adding
up goes on from batch to batch where it stopped, so a run adds up all its rows as if they were one
batch; and what rows add, and whether it stays within the limit, does not change when they change
places.
-/

namespace RowRecipe

namespace AggregateStats

namespace Machine

variable {s : AggregateStats} {m : Machine} {p : Pipeline}

section Batches

variable {rows : List Row}

theorem executeBatch_of_error {e : DirectiveError}
    (h : rows.foldlM s.addRow m.pending = .error e) (isLast : Bool) :
    m.executeBatch s rows isLast = (.error e, ⟨m.pending, m.isFinal || isLast⟩) := by
  rw [foldlM_addRow] at h
  unfold executeBatch
  cases hfault : s.firstFault? m.pending [] rows with
  | some e' =>
      rw [hfault] at h
      cases h
      rfl
  | none =>
      rw [hfault] at h
      cases h

theorem executeBatch_of_ok {totals : Totals}
    (h : rows.foldlM s.addRow m.pending = .ok totals) (isLast : Bool) :
    m.executeBatch s rows isLast =
      if m.isFinal || isLast then (.ok [s.sums totals], ⟨.zero, m.isFinal || isLast⟩)
      else (.ok (rows.map (s.withSums (Binary64.zero false) (Binary64.zero false))),
        ⟨totals, m.isFinal || isLast⟩) := by
  rw [foldlM_addRow] at h
  unfold executeBatch
  cases hfault : s.firstFault? m.pending [] rows with
  | some e =>
      rw [hfault] at h
      cases h
  | none =>
      rw [hfault] at h
      cases h
      rfl

end Batches

/-- Batches that end a run add up as one: the rows of all but the last pass on, and the summary of
all rows follows. -/
theorem executeAll_eq (h : Represents s m p) (hfinal : m.isFinal = false) (batch : List Row)
    (rest : List (List Row)) :
    (p.executeAll (batch :: rest)).1 =
      ((batch :: rest).flatten.foldlM s.addRow m.pending).map fun totals =>
        (batch :: rest).dropLast.flatten.map
          (s.withSums (Binary64.zero false) (Binary64.zero false)) ++ [s.sums totals] := by
  induction rest generalizing batch m p with
  | nil =>
      obtain ⟨p', trace, hexecute, -⟩ := h.executeBatch batch true
      have hsingle : [batch].flatten = batch := List.append_nil batch
      rw [hsingle]
      cases hfold : batch.foldlM s.addRow m.pending with
      | error e =>
          rw [executeBatch_of_error hfold] at hexecute
          simp only [Pipeline.executeAll, List.isEmpty_nil, hexecute]
          rfl
      | ok totals =>
          rw [executeBatch_of_ok hfold, hfinal] at hexecute
          simp only [Pipeline.executeAll, List.isEmpty_nil, hexecute]
          rfl
  | cons next rest ih =>
      obtain ⟨p', trace, hexecute, hnext⟩ := h.executeBatch batch false
      rw [List.flatten_cons, List.foldlM_append]
      cases hfold : batch.foldlM s.addRow m.pending with
      | error e =>
          rw [executeBatch_of_error hfold] at hexecute
          rw [Pipeline.executeAll]
          simp only [List.isEmpty_cons, hexecute]
          rfl
      | ok totals =>
          have hbatch : m.executeBatch s batch false =
              (.ok (batch.map (s.withSums (Binary64.zero false) (Binary64.zero false))),
                ⟨totals, false⟩) := by
            rw [executeBatch_of_ok hfold, hfinal]
            rfl
          rw [hbatch] at hexecute hnext
          have hrest := ih hnext rfl next
          rw [Pipeline.executeAll]
          simp only [List.isEmpty_cons, hexecute, hrest]
          change _ = ((next :: rest).flatten.foldlM s.addRow totals).map _
          cases (next :: rest).flatten.foldlM s.addRow totals with
          | error e => rfl
          | ok last =>
              simp only [Except.map, List.dropLast_cons_cons, List.flatten_cons, List.map_append,
                List.append_assoc]

/-- A run adds up the rows of all its batches as if they were one. -/
theorem run_eq (h : Represents s m p) (batches : List (List Row)) :
    (p.run batches).1 =
      (batches.flatten.foldlM s.addRow .zero).map fun totals =>
        batches.dropLast.flatten.map
          (s.withSums (Binary64.zero false) (Binary64.zero false)) ++ [s.sums totals] := by
  cases batches with
  | nil => exact executeAll_eq h.beginRun rfl [] []
  | cons batch rest => exact executeAll_eq h.beginRun rfl batch rest

end Machine

/-- Whether rows can be added up does not depend on their order, and neither do the totals. -/
theorem foldlM_addRow_perm (s : AggregateStats) {rows rows' : List Row} (h : rows.Perm rows') :
    (rows.foldlM s.addRow .zero).toOption = (rows'.foldlM s.addRow .zero).toOption := by
  have htallies : s.tallies rows = s.tallies rows' := by
    rw [tallies, tallies, s.byteSource.tally_perm h, s.timeSource.tally_perm h]
  have hfaults : s.firstFault? .zero [] rows = none ↔ s.firstFault? .zero [] rows' = none := by
    have haccepts : s.Accepts .zero rows ↔ s.Accepts .zero rows' := by
      have hbytes := s.byteSource.accepts_perm Totals.zero.bytes.total h
      have htime := s.timeSource.accepts_perm Totals.zero.time.total h
      constructor
      · intro h
        exact ⟨hbytes.mp h.bytes, htime.mp h.time⟩
      · intro h
        exact ⟨hbytes.mpr h.bytes, htime.mpr h.time⟩
    have hrows := Machine.firstFault?_eq_none_iff (m := .start) Totals.within_zero s
    exact ((hrows rows).trans haccepts).trans (hrows rows').symm
  rw [foldlM_addRow, foldlM_addRow, htallies]
  cases hfault : s.firstFault? .zero [] rows with
  | none => rw [hfaults.mp hfault]
  | some e =>
      cases hfault' : s.firstFault? .zero [] rows' with
      | none =>
          rw [hfaults.mpr hfault'] at hfault
          cases hfault
      | some e' => rfl

/-- The last row that a run gives, or how it fails. -/
def answer (p : Pipeline) (batches : List (List Row)) : Except DirectiveError (Option Row) :=
  (p.run batches).1.map List.getLast?

theorem answer_eq {s : AggregateStats} {m : Machine} {p : Pipeline} (h : m.Represents s p)
    (batches : List (List Row)) :
    answer p batches = (batches.flatten.foldlM s.addRow .zero).map fun totals =>
      some (s.sums totals) := by
  rw [answer, Machine.run_eq h]
  cases batches.flatten.foldlM s.addRow .zero with
  | error e => rfl
  | ok totals => exact congrArg Except.ok List.getLast?_concat

/-- A run of the directive alone gives the same answer for the same rows however they are cut into
batches, and for rows in another order the same answer unless it fails for both; a run that does not
fail gives at least one row. So the size of batches makes no difference among the sizes that there is
room for; with any other there are no batches to be run. -/
theorem run_batching {source : String} {registry : Registry} {settings : Settings}
    {p : Pipeline} {group : TokenGroup}
    (hregistry : registry.get? directiveName = some aggregateStats)
    (hcompile : (Pipeline.compile source registry settings).1 = .ok p)
    (hgroups : p.table.groups = [group]) (hname : group.directiveName? = some directiveName) :
    (∀ batches, answer p batches ≠ .ok none) ∧
      (∀ batches batches', batches.flatten = batches'.flatten →
        answer p batches = answer p batches') ∧
      (∀ batches batches', batches.flatten.Perm batches'.flatten →
        (answer p batches).toOption = (answer p batches').toOption) ∧
      ∀ (room : Room) rows size,
        (room.holds size = false → intoBatches? room size rows = none) ∧
        (room.holds size = true → ∃ batches, intoBatches? room size rows = some batches ∧
          ∀ size', room.holds size' = true → ∃ batches', intoBatches? room size' rows = some batches' ∧
            answer p batches = answer p batches') := by
  obtain ⟨_, s, -, -, -, hstart⟩ := represents_of_compile hregistry hcompile hgroups hname
  have hcut : ∀ batches batches', batches.flatten = batches'.flatten →
      answer p batches = answer p batches' := by
    intro batches batches' hflatten
    rw [answer_eq hstart, answer_eq hstart, hflatten]
  refine ⟨?_, hcut, ?_, fun room rows size => ⟨intoBatches?_eq_none.mpr, fun hroom => ?_⟩⟩
  · intro batches
    rw [answer_eq hstart]
    cases batches.flatten.foldlM s.addRow .zero <;> exact nofun
  · intro batches batches' hperm
    have hfold := s.foldlM_addRow_perm hperm
    rw [answer_eq hstart, answer_eq hstart]
    cases h : batches.flatten.foldlM s.addRow .zero <;>
      cases h' : batches'.flatten.foldlM s.addRow .zero <;> rw [h, h'] at hfold
    · rfl
    · cases hfold
    · cases hfold
    · cases hfold
      rfl
  · refine ⟨_, intoBatches?_eq_some.mpr ⟨hroom, rfl⟩, fun size' hroom' => ?_⟩
    refine ⟨_, intoBatches?_eq_some.mpr ⟨hroom', rfl⟩, hcut _ _ ?_⟩
    rw [cut_flatten, cut_flatten]

/-- A size and a duration, in a row each. -/
def twoAmounts : List Row := [.ofList [("a", .raw "1 KB")], .ofList [("b", .raw "2 s")]]

theorem run_batching_fourColumns :
    Registry.builtin.get? directiveName = some aggregateStats ∧
      (Pipeline.compile "aggregate-stats :a :b :c :d" .builtin .testing).1 = .ok ofFourColumns ∧
      ofFourColumns.table.groups = [fourColumns] ∧
      fourColumns.directiveName? = some directiveName ∧
      answer ofFourColumns [[.ofList [("a", .raw "1 KB")]], [], [.ofList [("b", .raw "2 s")]]] =
        answer ofFourColumns [twoAmounts] ∧
      Room.ofAddresses.holds 1 = true ∧ Room.ofAddresses.holds 2 = true ∧
      ∃ batches batches', intoBatches? .ofAddresses 1 twoAmounts = some batches ∧
        intoBatches? .ofAddresses 2 twoAmounts = some batches' ∧
        batches.length = 2 ∧ batches'.length = 1 ∧
        answer ofFourColumns batches = answer ofFourColumns batches' := by
  obtain ⟨-, hcut, -, hsizes⟩ := @run_batching _ _ _ _ fourColumns rfl compile_fourColumns rfl rfl
  have hone : Room.ofAddresses.holds 1 = true := by decide
  have htwo : Room.ofAddresses.holds 2 = true := by decide
  obtain ⟨batches, hbatches, hsame⟩ := (hsizes .ofAddresses twoAmounts 1).2 hone
  obtain ⟨batches', hbatches', hanswer⟩ := hsame 2 htwo
  refine ⟨rfl, compile_fourColumns, rfl, rfl, hcut _ _ rfl, hone, htwo, batches, batches', hbatches,
    hbatches', ?_, ?_, hanswer⟩
  · obtain ⟨-, rfl⟩ := intoBatches?_eq_some.mp hbatches
    exact cut_length (by decide) twoAmounts
  · obtain ⟨-, rfl⟩ := intoBatches?_eq_some.mp hbatches'
    exact cut_length (by decide) twoAmounts

/-- Two sizes that do not agree: cut into batches of one row, rows have an answer; cut into batches of the
largest size that can be given, they have none. -/
theorem run_batching_largest :
    1 ≤ 2 ^ 64 - 1 ∧ intoBatches? .ofAddresses (2 ^ 64 - 1) twoAmounts = none ∧
      ∃ batches, intoBatches? .ofAddresses 1 twoAmounts = some batches ∧
        (answer ofFourColumns batches).toOption.map (Option.map fun row => row.json.compact) =
          some (some "\x7b\"c\":0.0009765625,\"d\":2.0\x7d") := by
  have hbatches : intoBatches? .ofAddresses 1 twoAmounts =
      some [[.ofList [("a", .raw "1 KB")]], [.ofList [("b", .raw "2 s")]]] := by
    simp [intoBatches?, cut, twoAmounts, Room.ofAddresses]
  exact ⟨by decide, intoBatches?_eq_none.mpr (by decide), _, hbatches, by decide +kernel⟩

end AggregateStats

end RowRecipe
