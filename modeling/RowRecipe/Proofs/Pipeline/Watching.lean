import RowRecipe.Proofs.Pipeline.Batches
import RowRecipe.Proofs.Pipeline.Bookkeeping

/-!
What a directive is handed in a run. To see it, the directive is watched: it keeps a record of the rows
of each batch and of whether the batch was the last one, and does otherwise what it does unwatched.
So what is on record after a run is what the directive was handed. When the rows of the run were cut
into batches, it was handed as many batches as that makes, the last one and no other as the last, and
the first directive was handed every row once and in order.
-/

namespace RowRecipe

/-- The directive with a record of what it is handed. -/
def Directive.watched (d : Directive) : Directive where
  State := d.State × List (List Row × Bool)
  start := (d.start, [])
  usage := d.usage
  prepare := fun args state =>
    let p := d.prepare args state.1
    ⟨p.outcome, (p.state, state.2), p.notes⟩
  execute := fun rows v state =>
    let e := d.execute rows v state.1
    ⟨e.outcome, (e.state, state.2 ++ [(rows, v.context.isFinal)]), e.writes, e.notes⟩
  destroy := fun state => d.destroy state.1

/-- The stage with its directive watched, and with what is on record so far. -/
def Stage.watched (record : List (List Row × Bool)) (s : Stage) : Stage :=
  ⟨s.name, s.span, s.directive.watched, (s.state, record), s.isDestroyed⟩

/-- A stage that is watched does the same, and what it was handed goes on record. -/
theorem Stage.execute_watched {owner : Nat} {rows out : List Row} {c d : Context} {s next : Stage}
    {events : List Event} (h : s.execute owner rows c = (.ok out, next, d, events))
    (record : List (List Row × Bool)) :
    (s.watched record).execute owner rows c =
      (.ok out, next.watched (record ++ [(rows, c.isFinal)]), d, events) := by
  have halive := isDestroyed_of_execute h
  have hwatched : (s.watched record).isDestroyed = false := halive
  simp only [execute, halive, hwatched, Bool.false_eq_true, if_false, Prod.mk.injEq] at h ⊢
  obtain ⟨houtcome, rfl, rfl, rfl⟩ := h
  exact ⟨houtcome, rfl, rfl, rfl⟩

namespace Pipeline

/-- The pipeline with the directive at an index watched. -/
def watched (index : Nat) (record : List (List Row × Bool)) (p : Pipeline) : Pipeline :=
  { p with stages := p.stages.modify index (Stage.watched record) }

/-- Rows that pass through stages do so when one of these is watched. What goes on record are the rows
that it was handed; the first stage is handed those that come in. -/
theorem passThrough_watched {position index : Nat} {stages next : List Stage} {rows out : List Row}
    {c d : Context} {trace : Trace} (hindex : index < stages.length)
    (h : passThrough position stages rows c = (.ok out, next, d, trace))
    (record : List (List Row × Bool)) :
    ∃ handed, passThrough position (stages.modify index (Stage.watched record)) rows c =
        (.ok out, next.modify index (Stage.watched (record ++ [(handed, c.isFinal)])), d, trace) ∧
      (index = 0 → handed = rows) := by
  induction stages generalizing position index rows c next trace with
  | nil => exact absurd hindex (Nat.not_lt_zero index)
  | cons s rest ih =>
      rcases hexecute : s.execute position rows c with ⟨outcome, s', c', events⟩
      cases outcome with
      | error e =>
          rw [passThrough_of_error hexecute] at h
          cases h
      | ok passed =>
          rw [passThrough_of_ok hexecute] at h
          rcases hrest : passThrough (position + 1) rest passed c' with ⟨outcome, rest', c'', more⟩
          rw [hrest] at h
          cases h
          cases index with
          | zero =>
              refine ⟨rows, ?_, fun _ => rfl⟩
              rw [List.modify_zero_cons, passThrough_of_ok (Stage.execute_watched hexecute record), hrest]
              rfl
          | succ index =>
              obtain ⟨handed, hhanded, -⟩ := ih (Nat.lt_of_succ_lt_succ hindex) hrest
              have hfinal := (Stage.execute_frame hexecute).2.1
              refine ⟨handed, ?_, nofun⟩
              rw [List.modify_succ_cons, passThrough_of_ok hexecute, hhanded, hfinal]
              rfl

variable {p q : Pipeline} {index : Nat} {rows out : List Row} {isLast : Bool} {trace : Trace}

theorem executeBatch_watched (hindex : index < p.size)
    (h : p.executeBatch rows isLast = (.ok out, q, trace)) (record : List (List Row × Bool)) :
    ∃ handed, (p.watched index record).executeBatch rows isLast =
        (.ok out, q.watched index (record ++ [(handed, p.context.isFinal || isLast)]), trace) ∧
      (index = 0 → handed = rows) := by
  rcases hpassed : passThrough 0 p.stages rows (p.context.beginBatch isLast) with
    ⟨outcome, next, d, events⟩
  have hexecute : p.executeBatch rows isLast =
      (outcome, { p with stages := next, context := d.endBatch }, events) := by
    simp only [executeBatch, hpassed]
  rw [hexecute] at h
  cases h
  obtain ⟨handed, hhanded, hfirst⟩ := passThrough_watched hindex hpassed record
  refine ⟨handed, ?_, hfirst⟩
  simp only [executeBatch, watched, hhanded]
  rfl

theorem isFinal_executeBatch (h : p.executeBatch rows isLast = (.ok out, q, trace)) :
    q.context.isFinal = (p.context.isFinal || isLast) := by
  have hframe := (passThrough_frame 0 p.stages rows (p.context.beginBatch isLast)).2.1
  have hlast : q.context.isFinal =
      (passThrough 0 p.stages rows (p.context.beginBatch isLast)).2.2.1.isFinal :=
    congrArg (fun r => r.2.1.context.isFinal) h.symm
  exact hlast.trans hframe

/-- Until a batch is marked as the last, none is, so what goes on record are the marks of the batches. -/
theorem feed_watched {batches : List (List Row)} {outs : List (List Row × Bool)}
    (hindex : index < p.size) (hbegun : p.context.isFinal = false)
    (h : p.feed (marked batches) = (.ok outs, q, trace)) (record : List (List Row × Bool)) :
    ∃ handed : List (List Row × Bool),
      (p.watched index record).feed (marked batches) =
        (.ok outs, q.watched index (record ++ handed), trace) ∧
      handed.map Prod.snd = (marked batches).map Prod.snd ∧
      (index = 0 → handed = marked batches) := by
  induction batches generalizing p outs trace record with
  | nil =>
      cases h
      refine ⟨[], ?_, rfl, fun _ => rfl⟩
      rw [List.append_nil]
      rfl
  | cons rows rest ih =>
      obtain ⟨out, outs', next, first, more, hexecute, hrest, rfl, rfl⟩ := feed_cons_eq_ok h
      obtain ⟨handed, hhanded, hfirst⟩ := executeBatch_watched hindex hexecute record
      have hmark := isFinal_executeBatch hexecute
      rw [hbegun, Bool.false_or] at hmark hhanded
      cases rest with
      | nil =>
          cases hrest
          refine ⟨[(handed, true)], ?_, rfl, fun hzero => by rw [hfirst hzero]; rfl⟩
          rw [marked, feed_of_ok hhanded]
          rfl
      | cons rows' rest =>
          rw [List.isEmpty_cons] at hexecute hmark hhanded
          have hsize : next.size = p.size := by
            rw [← size_operate (.executeBatch rows false) p, operate, hexecute]
          obtain ⟨others, hothers, hmarks, hall⟩ := ih (hsize ▸ hindex) hmark hrest
            (record ++ [(handed, false)])
          refine ⟨(handed, false) :: others, ?_, ?_, fun hzero => ?_⟩
          · rw [marked, List.isEmpty_cons, feed_of_ok hhanded, hothers, List.append_assoc]
            rfl
          · rw [marked, List.map_cons, List.map_cons, hmarks]
            rfl
          · rw [marked, hfirst hzero, hall hzero]
            rfl

theorem executed_of_feed {batches outs : List (List Row × Bool)}
    (h : p.feed batches = (.ok outs, q, trace)) : p.executed batches = batches.map Prod.snd := by
  induction batches generalizing p outs trace with
  | nil => rfl
  | cons batch rest ih =>
      obtain ⟨rows, isLast⟩ := batch
      obtain ⟨out, outs', next, first, more, hexecute, hrest, rfl, rfl⟩ := feed_cons_eq_ok h
      simp only [executed, hexecute, List.map_cons, ih hrest]

theorem marked_fst (batches : List (List Row)) : (marked batches).map Prod.fst = batches := by
  induction batches with
  | nil => rfl
  | cons rows rest ih => rw [marked, List.map_cons, ih]

/-- The last batch is marked and no other. -/
theorem marked_snd {batches : List (List Row)} (h : batches ≠ []) :
    (marked batches).map Prod.snd = List.replicate (batches.length - 1) false ++ [true] := by
  induction batches with
  | nil => exact absurd rfl h
  | cons rows rest ih =>
      cases rest with
      | nil => rfl
      | cons rows' rest =>
          rw [marked, List.map_cons, ih (List.cons_ne_nil _ _)]
          rfl

/-- A run hands over the rows of its batches. -/
theorem runBatches_fst (batches : List (List Row)) :
    (runBatches batches).flatMap Prod.fst = batches.flatten := by
  rw [List.flatMap_def, runBatches, marked_fst]
  cases batches <;> rfl

/-- A run executes its batches, or one if it has none, and marks the last of them. -/
theorem runBatches_snd (batches : List (List Row)) :
    (runBatches batches).map Prod.snd =
      List.replicate (max 1 batches.length - 1) false ++ [true] := by
  cases batches with
  | nil => rfl
  | cons rows rest =>
      have hlength : max 1 (rows :: rest).length = (rows :: rest).length :=
        Nat.max_eq_right (Nat.succ_pos _)
      rw [hlength]
      exact marked_snd (List.cons_ne_nil rows rest)

theorem length_runBatches (batches : List (List Row)) :
    (runBatches batches).length = max 1 batches.length := by
  have hlength := congrArg List.length (runBatches_snd batches)
  rw [List.length_map, List.length_append, List.length_replicate, List.length_singleton] at hlength
  omega

section Run

variable {batches : List (List Row)}

theorem feed_of_run (h : p.run batches = (.ok out, q, trace)) :
    ∃ outs, p.beginRun.feed (runBatches batches) = (.ok outs, q, trace) ∧
      outs.flatMap Prod.fst = out := by
  rw [run_eq_feed] at h
  rcases hfeed : p.beginRun.feed (runBatches batches) with ⟨outcome, last, events⟩
  rw [hfeed] at h
  cases outcome with
  | error e => cases h
  | ok outs =>
      cases h
      exact ⟨outs, rfl, rfl⟩

/-- A run in which no batch fails executes all its batches. -/
theorem marksAfter_run (h : p.run batches = (.ok out, q, trace)) :
    p.marksAfter [] (.run batches) = (runBatches batches).map Prod.snd := by
  obtain ⟨outs, hfeed, -⟩ := feed_of_run h
  exact executed_of_feed hfeed

theorem batches_run (h : p.run batches = (.ok out, q, trace)) :
    q.context.batches = (runBatches batches).length := by
  obtain ⟨outs, hfeed, -⟩ := feed_of_run h
  have htells : (p.beginRun.feed (runBatches batches)).2.1.context.Tells p.size
      ([] ++ p.beginRun.executed (runBatches batches)) :=
    tells_feed (p := p.beginRun) (tells_fresh p.size p.context.environment)
  rw [hfeed, executed_of_feed hfeed, List.nil_append] at htells
  rw [htells.batches, List.length_map]

theorem executions_run (h : p.run batches = (.ok out, q, trace)) :
    trace.executions =
      (List.replicate (runBatches batches).length (List.range p.size)).flatten := by
  obtain ⟨outs, hfeed, -⟩ := feed_of_run h
  exact executions_feed (p := p.beginRun) hfeed

/-- A run is the same when a directive is watched. On record are the marks of its batches, and for the
first directive the rows too. -/
theorem run_watched (hindex : index < p.size) (h : p.run batches = (.ok out, q, trace)) :
    ∃ record : List (List Row × Bool),
      (p.watched index []).run batches = (.ok out, q.watched index record, trace) ∧
      record.map Prod.snd = (runBatches batches).map Prod.snd ∧
      (index = 0 → record = runBatches batches) := by
  obtain ⟨outs, hfeed, hout⟩ := feed_of_run h
  obtain ⟨record, hwatched, hmarks, hfirst⟩ := feed_watched (p := p.beginRun) hindex rfl hfeed []
  refine ⟨record, ?_, hmarks, hfirst⟩
  have hbegin : (p.watched index []).beginRun = p.beginRun.watched index [] := rfl
  rw [run_eq_feed, hbegin, runBatches, hwatched, List.nil_append, ← hout]
  rfl

end Run

/-- Rows are cut into batches if there is room for a batch, and if there is none, as for sizes past those
of memory, nothing comes of them. The batches keep the rows in their order; all batches but the last are
full, the last one is not empty, and there are as many as it takes, which is also what filling them row by
row makes. A run over them that does not fail executes each of them, or an empty one if there are none;
every directive sees the last one and no other as the last, and the first directive is handed every row
once, in order. -/
theorem run_intoBatches (room : Room) {size : Nat} (hsize : 0 < size) (rows : List Row) :
    (room.holds size = false → intoBatches? room size rows = none) ∧
      (2 ^ 63 ≤ size → intoBatches? room size rows = none) ∧
      (room.holds size = true → ∃ batches, intoBatches? room size rows = some batches ∧
        Cuts size rows batches ∧
        batches.length = rows.length ⌈/⌉ size ∧
        batches = fillBatches size [] rows ∧
        ∀ (p q : Pipeline) (out : List Row) (trace : Trace),
          p.run batches = (.ok out, q, trace) →
          let count := max 1 (rows.length ⌈/⌉ size)
          let marks := List.replicate (count - 1) false ++ [true]
          q.context.batches = count ∧
            trace.executions = (List.replicate count (List.range p.size)).flatten ∧
            p.marksAfter [] (.run batches) = marks ∧
            ∀ index < p.size, ∃ record : List (List Row × Bool),
              (p.watched index []).run batches = (.ok out, q.watched index record, trace) ∧
              record.map Prod.snd = marks ∧
              (index = 0 → record.flatMap Prod.fst = rows)) := by
  refine ⟨intoBatches?_eq_none.mpr, fun hlarge => intoBatches?_eq_none.mpr ?_, ?_⟩
  · exact Bool.eq_false_iff.mpr fun hroom => Nat.not_lt.mpr hlarge (room.limited size hroom)
  intro hroom
  have hlength := cut_length hsize rows
  have hfill : fillBatches size [] rows = cut size rows := fillBatches_eq hsize rows
  refine ⟨cut size rows, intoBatches?_eq_some.mpr ⟨hroom, rfl⟩, cut_cuts hsize rows, hlength,
    hfill.symm, ?_⟩
  intro p q out trace h
  have hmarks := runBatches_snd (cut size rows)
  have hcount := length_runBatches (cut size rows)
  rw [hlength] at hmarks hcount
  refine ⟨(batches_run h).trans hcount, hcount ▸ executions_run h, (marksAfter_run h).trans hmarks, ?_⟩
  intro index hindex
  obtain ⟨record, hwatched, hrecord, hfirst⟩ := run_watched hindex h
  refine ⟨record, hwatched, hrecord.trans hmarks, fun hzero => ?_⟩
  rw [hfirst hzero, runBatches_fst, cut_flatten]

/-- Three rows, which are more than one batch of two. -/
def threeRows : List Row := [.ofList [("n", .int 1)], .ofList [("n", .int 2)], .ofList [("n", .int 3)]]

theorem cut_threeRows : cut 2 threeRows = [threeRows.take 2, threeRows.drop 2] := by
  simp [threeRows, cut]

/-- The directive that refuses batches without rows is handed two batches, and it passes them on. -/
theorem run_intoBatches_threeRows :
    0 < 2 ∧ Room.ofAddresses.holds 2 = true ∧
      ∃ batches q trace, intoBatches? .ofAddresses 2 threeRows = some batches ∧
        batches = [threeRows.take 2, threeRows.drop 2] ∧
        ofCounting.run batches = (.ok threeRows, q, trace) ∧
        q.context.batches = 2 ∧
        ∃ record : List (List Row × Bool),
          (ofCounting.watched 0 []).run batches = (.ok threeRows, q.watched 0 record, trace) ∧
          record.map Prod.snd = [false, true] ∧ record.flatMap Prod.fst = threeRows := by
  have hroom : Room.ofAddresses.holds 2 = true := by decide
  obtain ⟨-, -, hholds⟩ := run_intoBatches .ofAddresses (by decide : 0 < 2) threeRows
  obtain ⟨batches, hbatches, -, -, -, hall⟩ := hholds hroom
  obtain ⟨-, rfl⟩ := intoBatches?_eq_some.mp hbatches
  have hrun : ofCounting.run (cut 2 threeRows) =
      (.ok threeRows, (ofCounting.run (cut 2 threeRows)).2) := by
    refine Prod.ext ?_ rfl
    rw [cut_threeRows]
    rfl
  obtain ⟨hcount, -, -, hwatched⟩ := hall ofCounting _ _ _ hrun
  obtain ⟨record, hrecord, hmarks, hfirst⟩ := hwatched 0 (by decide)
  exact ⟨by decide, hroom, _, _, _, hbatches, cut_threeRows, hrun, hcount, record, hrecord, hmarks,
    hfirst rfl⟩

/-- The largest size that can be given is one of those for which no room can be made: three rows are
not cut into batches of it. -/
theorem intoBatches_largest :
    1 ≤ 2 ^ 64 - 1 ∧ intoBatches? .ofAddresses (2 ^ 64 - 1) threeRows = none ∧
      ¬ ∃ batches, intoBatches? .ofAddresses (2 ^ 64 - 1) threeRows = some batches ∧
        batches.flatten = threeRows := by
  have hnone : intoBatches? .ofAddresses (2 ^ 64 - 1) threeRows = none :=
    intoBatches?_eq_none.mpr (by decide)
  refine ⟨by decide, hnone, ?_⟩
  rintro ⟨batches, hsome, -⟩
  rw [hnone] at hsome
  cases hsome

end Pipeline

end RowRecipe
