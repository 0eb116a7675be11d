import RowRecipe.Proofs.Directive.History
import RowRecipe.Proofs.Pipeline.Feeding
import RowRecipe.Proofs.Pipeline.Opening

/-!
The life of a pipeline, from opening it to dropping it. Whatever is called on a pipeline in between,
every directive that was created for it is prepared once, then executed some times, and destroyed
once at the end; and none is executed before all have been prepared. A pipeline that cannot be
opened has destroyed what was created for it by the time its error is known.
-/

namespace RowRecipe.Pipeline

/-- What the owner of a pipeline can do with it. -/
inductive Operation where
  | executeBatch (rows : List Row) (isLast : Bool)
  | run (batches : List (List Row))
  | beginRun
  | close

/-- Carries out an operation. Its outcome does not matter to the life of the directives. -/
def operate : Operation → Pipeline → Pipeline × Trace
  | .executeBatch rows isLast, p => (p.executeBatch rows isLast).2
  | .run batches, p => (p.run batches).2
  | .beginRun, p => (p.beginRun, [])
  | .close, p => p.close

/-- Carries out operations one after another; one that fails does not end them. -/
def operateAll : List Operation → Pipeline → Pipeline × Trace
  | [], p => (p, [])
  | operation :: rest, p =>
      let (p, trace) := p.operate operation
      let (p, more) := p.operateAll rest
      (p, trace ++ more)

/-- All that happens to a pipeline after it was opened: the operations, and what dropping it does. -/
def useAndDrop (operations : List Operation) (p : Pipeline) : Trace :=
  (p.operateAll operations).2 ++ (p.operateAll operations).1.close.2

theorem position_le_of_mem_passThrough (position : Nat) (stages : List Stage) (rows : List Row)
    (c : Context) : ∀ p ∈ (passThrough position stages rows c).2.2.2, position ≤ p.1 := by
  induction stages generalizing position rows c with
  | nil => exact List.forall_mem_nil _
  | cons s rest ih =>
      rcases hexecute : s.execute position rows c with ⟨outcome, next, d, events⟩
      have hown : ∀ p ∈ Trace.atStage position events, position ≤ p.1 := by
        intro p hp
        obtain ⟨event, -, rfl⟩ := List.mem_map.mp hp
        exact Nat.le_refl _
      cases outcome with
      | error e =>
          rw [passThrough_of_error hexecute]
          exact hown
      | ok out =>
          rw [passThrough_of_ok hexecute]
          intro p hp
          rcases List.mem_append.mp hp with hp | hp
          · exact hown p hp
          · exact Nat.le_of_succ_le (ih (position + 1) out d p hp)

/-- A batch executes each directive at most once, and none that is destroyed. -/
theorem course_passThrough (position : Nat) (stages : List Stage) (rows : List Row) (c : Context)
    (k : Nat) :
    Stage.Course stages[k]? (passThrough position stages rows c).2.1[k]?
      ((passThrough position stages rows c).2.2.2.eventsAt (position + k)) := by
  induction stages generalizing position rows c k with
  | nil => exact .refl none
  | cons s rest ih =>
      rcases hexecute : s.execute position rows c with ⟨outcome, next, d, events⟩
      have hcourse := Stage.course_execute hexecute
      cases outcome with
      | error e =>
          rw [passThrough_of_error hexecute]
          cases k with
          | zero =>
              simp only [Nat.add_zero, Trace.eventsAt_atStage]
              exact hcourse
          | succ k =>
              rw [← List.append_nil (Trace.atStage position events),
                Trace.eventsAt_atStage_append_of_ne (by omega)]
              exact .refl rest[k]?
      | ok out =>
          have hlater := position_le_of_mem_passThrough (position + 1) rest out d
          rw [passThrough_of_ok hexecute]
          cases k with
          | zero =>
              simp only [Nat.add_zero, Trace.eventsAt_atStage_append hlater]
              exact hcourse
          | succ k =>
              simp only [Trace.eventsAt_atStage_append_of_lt]
              exact ih (position + 1) out d k

theorem position_le_of_mem_closeStages (position : Nat) (stages : List Stage) :
    ∀ p ∈ (closeStages position stages).2, position ≤ p.1 := by
  induction stages generalizing position with
  | nil => exact List.forall_mem_nil _
  | cons s rest ih =>
      intro p hp
      rcases List.mem_append.mp hp with hp | hp
      · obtain ⟨event, -, rfl⟩ := List.mem_map.mp hp
        exact Nat.le_refl _
      · exact Nat.le_of_succ_le (ih (position + 1) p hp)

/-- Closing stages closes each of them. -/
theorem closeStages_getElem? (position : Nat) (stages : List Stage) (k : Nat) :
    (closeStages position stages).1[k]? = stages[k]?.map (fun s => s.close.1) ∧
      (closeStages position stages).2.eventsAt (position + k) =
        (stages[k]?.map fun s => s.close.2).getD [] := by
  induction stages generalizing position k with
  | nil => exact ⟨rfl, rfl⟩
  | cons s rest ih =>
      have hclose : closeStages position (s :: rest) =
          (s.close.1 :: (closeStages (position + 1) rest).1,
            .atStage position s.close.2 ++ (closeStages (position + 1) rest).2) := rfl
      have hlater := position_le_of_mem_closeStages (position + 1) rest
      rw [hclose]
      cases k with
      | zero =>
          simp only [Nat.add_zero, Trace.eventsAt_atStage_append hlater]
          exact ⟨rfl, rfl⟩
      | succ k =>
          simp only [Trace.eventsAt_atStage_append_of_lt]
          exact ih (position + 1) k

variable {p : Pipeline} {k : Nat}

theorem course_executeBatch (rows : List Row) (isLast : Bool) (p : Pipeline) (k : Nat) :
    Stage.Course p.stages[k]? (p.executeBatch rows isLast).2.1.stages[k]?
      ((p.executeBatch rows isLast).2.2.eventsAt k) := by
  have hcourse := course_passThrough 0 p.stages rows (p.context.beginBatch isLast) k
  rw [Nat.zero_add] at hcourse
  exact hcourse

theorem course_executeAll (batches : List (List Row)) (p : Pipeline) (k : Nat) :
    Stage.Course p.stages[k]? (p.executeAll batches).2.1.stages[k]?
      ((p.executeAll batches).2.2.eventsAt k) := by
  induction batches generalizing p with
  | nil => exact .refl p.stages[k]?
  | cons batch rest ih =>
      have hcourse := p.course_executeBatch batch rest.isEmpty k
      rcases hexecute : p.executeBatch batch rest.isEmpty with ⟨outcome, next, trace⟩
      rw [hexecute] at hcourse
      cases outcome with
      | error e =>
          simp only [executeAll, hexecute]
          exact hcourse
      | ok out =>
          simp only [executeAll, hexecute, Trace.eventsAt_append]
          exact hcourse.trans (ih next)

/-- Closing a pipeline leaves all its directives destroyed. -/
theorem course_close (p : Pipeline) (k : Nat) :
    Stage.Course p.stages[k]? p.close.1.stages[k]? (p.close.2.eventsAt k) ∧
      ∀ s, p.close.1.stages[k]? = some s → s.isDestroyed = true := by
  obtain ⟨hstage, hevents⟩ := closeStages_getElem? 0 p.stages k
  rw [Nat.zero_add] at hevents
  have hclose : p.close = ({ p with stages := (closeStages 0 p.stages).1 },
    (closeStages 0 p.stages).2) := rfl
  simp only [hclose, hevents, hstage]
  cases p.stages[k]? with
  | none => exact ⟨.refl none, nofun⟩
  | some s =>
      refine ⟨s.course_close, fun last hlast => ?_⟩
      rw [← Option.some.inj hlast]
      exact s.isDestroyed_close

/-- What one operation does to a directive. -/
theorem course_operate (operation : Operation) (p : Pipeline) (k : Nat) :
    Stage.Course p.stages[k]? (p.operate operation).1.stages[k]?
      ((p.operate operation).2.eventsAt k) := by
  cases operation with
  | executeBatch rows isLast => exact p.course_executeBatch rows isLast k
  | run batches => exact p.beginRun.course_executeAll _ k
  | beginRun => exact .refl p.stages[k]?
  | close => exact (p.course_close k).1

/-- What operations do to a directive. -/
theorem course_operateAll (operations : List Operation) (p : Pipeline) (k : Nat) :
    Stage.Course p.stages[k]? (p.operateAll operations).1.stages[k]?
      ((p.operateAll operations).2.eventsAt k) := by
  induction operations generalizing p with
  | nil => exact .refl p.stages[k]?
  | cons operation rest ih =>
      simp only [operateAll, Trace.eventsAt_append]
      exact (p.course_operate operation k).trans (ih _)

/-- After whatever was done with it, a pipeline that is dropped has destroyed each directive that was
at work, once and in the state that its executions had left, and nothing has happened elsewhere. -/
theorem eventsAt_useAndDrop (operations : List Operation) (p : Pipeline) (k : Nat) :
    (∀ s, p.stages[k]? = some s → s.isDestroyed = false → ∃ last work,
        s.directive.Works s.state last work ∧
          (p.useAndDrop operations).eventsAt k = work ++ s.directive.ending last) ∧
      (p.stages[k]? = none → (p.useAndDrop operations).eventsAt k = []) := by
  obtain ⟨hdropped, hended⟩ := (p.operateAll operations).1.course_close k
  have hlife := (p.course_operateAll operations k).trans hdropped
  rw [← Trace.eventsAt_append] at hlife
  refine ⟨fun s hs halive => ?_, fun habsent => ?_⟩
  · rw [hs] at hlife
    -- A directive that is at work cannot go missing.
    obtain ⟨last, hlast⟩ := Option.isSome_iff_exists.mp hlife.isSome_of_some
    rw [hlast] at hlife
    exact hlife.works halive (hended last hlast)
  · rw [habsent] at hlife
    exact hlife.eq_nil_of_absent.2

/-- What comes before an event that a first part of the trace does not have begins with that part. -/
theorem subset_before {first second before after : Trace} {p : Nat × Event}
    (h : first ++ second = before ++ p :: after) (hp : p ∉ first) : first ⊆ before := by
  rcases List.append_eq_append_iff.mp h with ⟨more, rfl, -⟩ | ⟨more, rfl, hmore⟩
  · exact List.subset_append_left first more
  · cases more with
    | nil =>
        rw [List.append_nil]
        exact List.Subset.refl before
    | cons q rest =>
        obtain ⟨rfl, -⟩ := List.cons.inj hmore
        exact absurd (List.mem_append_right before List.mem_cons_self) hp

section Opening

variable {registry : Registry} {group : TokenGroup} {groups : List TokenGroup}
  {opened stages : List Stage} {stage : Stage} {begun work life : List Event} {trace : Trace}

/-- The whole life of the directive of a group that accepts the arguments in the group, as a trace
tells it: the directive is created and prepared, works, and is at last destroyed in the state that
its work has left. -/
inductive Lives (registry : Registry) (group : TokenGroup) (work : List Event) :
    List Event → Prop where
  | completely {name : String} {d : Directive} {args : Arguments} {last : d.State}
      (hname : group.directiveName? = some name) (hknown : registry.get? name = some d)
      (hbound : Arguments.bind d.usage group = .ok args)
      (haccepts : (d.prepare args d.start).outcome = .ok ())
      (hworks : d.Works (d.prepare args d.start).state last work) :
      Lives registry group work (d.beginning args ++ work ++ d.ending last)

theorem Begun.lives {last : stage.directive.State} (h : Begun registry group stage begun)
    (hworks : stage.directive.Works stage.state last work) :
    Lives registry group work (begun ++ work ++ stage.directive.ending last) := by
  cases h with
  | prepared hname hknown hbound haccepts => exact .completely hname hknown hbound haccepts hworks

/-- In its life, a directive is created, prepared once, executed some times and destroyed once. -/
theorem Lives.calls (h : Lives registry group work life) :
    life.filter Event.isCall =
        [.created, .prepared true] ++ work.filter Event.isCall ++ [.destroyed] ∧
      ∃ batches, work.filter Event.isCall = List.replicate batches .executed := by
  cases h with
  | completely hname hknown hbound haccepts hworks =>
      refine ⟨?_, hworks.calls⟩
      rw [List.filter_append, List.filter_append, Directive.calls_beginning, haccepts,
        Directive.calls_ending]
      rfl

/-- Closing stages that are not destroyed destroys each of them. -/
theorem eventsAt_closeStages (halive : ∀ s ∈ stages, s.isDestroyed = false) :
    (∀ k s, stages[k]? = some s →
        (closeStages 0 stages).2.eventsAt k = s.directive.ending s.state) ∧
      ∀ k, stages.length ≤ k → (closeStages 0 stages).2.eventsAt k = [] := by
  refine ⟨fun k s hs => ?_, fun k hk => ?_⟩
  · obtain ⟨-, hevents⟩ := closeStages_getElem? 0 stages k
    rw [Nat.zero_add] at hevents
    rw [hevents, hs, Option.map_some, Option.getD_some,
      Stage.close_of_alive (halive s (List.mem_of_getElem? hs))]
  · obtain ⟨-, hevents⟩ := closeStages_getElem? 0 stages k
    rw [Nat.zero_add] at hevents
    rw [hevents, List.getElem?_eq_none hk]
    rfl

/-- Opening stages for groups creates one directive for each and prepares it. -/
theorem begun_of_openStages (h : openStages registry opened groups = (.ok stages, trace)) :
    (∀ k group, groups[k]? = some group → ∃ s, stages[opened.length + k]? = some s ∧
        Begun registry group s (trace.eventsAt (opened.length + k))) ∧
      ∀ k, k < opened.length ∨ opened.length + groups.length ≤ k → trace.eventsAt k = [] := by
  induction groups generalizing opened trace with
  | nil =>
      cases h
      exact ⟨nofun, fun _ _ => rfl⟩
  | cons group rest ih =>
      obtain ⟨made, stage, events, more, hmade, hprepared, hrest, rfl⟩ := openStages_cons_eq_ok h
      obtain ⟨-, hbegun⟩ | ⟨e, he, -⟩ := prepareStage_cases hmade hprepared
      · obtain ⟨hlater, helsewhere⟩ := ih hrest
        obtain ⟨others, rfl, -⟩ := openStages_opens hrest
        rw [List.length_append, List.length_singleton] at hlater helsewhere
        refine ⟨fun k other hk => ?_, fun k hk => ?_⟩
        · cases k with
          | zero =>
              obtain rfl := Option.some.inj hk
              refine ⟨stage, by simp, ?_⟩
              rw [Nat.add_zero, Trace.eventsAt_atStage_append_self,
                helsewhere _ (.inl (Nat.lt_succ_self _)), List.append_nil]
              exact hbegun
          | succ k =>
              rw [Trace.eventsAt_atStage_append_of_lt, ← Nat.add_assoc, Nat.add_right_comm]
              exact hlater k other hk
        · rw [List.length_cons] at hk
          rw [Trace.eventsAt_atStage_append_of_ne (by omega), helsewhere k (by omega)]
      · cases he

/-- A pipeline that cannot be opened failed at one group. What was created before it is prepared and
destroyed; what was created for it is destroyed; nothing was created after it. -/
theorem refused_of_openStages {e : RecipeError} (halive : ∀ s ∈ opened, s.isDestroyed = false)
    (h : openStages registry opened groups = (.error e, trace)) :
    ∃ before group after last, groups = before ++ group :: after ∧
      Refused registry group e last ∧
      (∀ k s, opened[k]? = some s → trace.eventsAt k = s.directive.ending s.state) ∧
      (∀ k group, before[k]? = some group →
        Lives registry group [] (trace.eventsAt (opened.length + k))) ∧
      trace.eventsAt (opened.length + before.length) = last ∧
      ∀ k, opened.length + before.length < k → trace.eventsAt k = [] := by
  induction groups generalizing opened trace with
  | nil => cases h
  | cons group rest ih =>
      obtain ⟨hclosed, hnone⟩ := eventsAt_closeStages halive
      cases hmade : stageOf registry group with
      | error e =>
          rw [openStages_of_unknown hmade] at h
          cases h
          exact ⟨[], group, rest, [], rfl, .unknown hmade, hclosed, nofun, hnone _ (Nat.le_refl _),
            fun k hk => hnone k (Nat.le_of_lt hk)⟩
      | ok made =>
          rcases hprepared : prepareStage group made with ⟨outcome, stage, events⟩
          rcases prepareStage_cases hmade hprepared with ⟨rfl, hbegun⟩ | ⟨e, rfl, hrefused⟩
          · rw [openStages_of_prepared hmade hprepared] at h
            rcases hrest : openStages registry (opened ++ [stage]) rest with ⟨outcome, more⟩
            rw [hrest] at h
            obtain ⟨rfl, rfl⟩ := Prod.mk.inj h
            have hnext : ∀ s ∈ opened ++ [stage], s.isDestroyed = false :=
              List.forall_mem_append.mpr ⟨halive, List.forall_mem_singleton.mpr hbegun.alive⟩
            obtain ⟨before, last, after, events', rfl, hrefused, hopened, hbefore, hlast, hafter⟩ :=
              ih hnext hrest
            rw [List.length_append, List.length_singleton] at hbefore hlast hafter
            refine ⟨group :: before, last, after, events', rfl, hrefused, fun k s hs => ?_,
              fun k other hk => ?_, ?_, fun k hk => ?_⟩
            · have hk : k < opened.length := (List.getElem?_eq_some_iff.mp hs).1
              rw [Trace.eventsAt_atStage_append_of_ne (by omega)]
              exact hopened k s (by rw [List.getElem?_append_left hk, hs])
            · cases k with
              | zero =>
                  obtain rfl := Option.some.inj hk
                  have hlives := hbegun.lives .rests
                  rw [List.append_nil] at hlives
                  rw [Nat.add_zero, Trace.eventsAt_atStage_append_self,
                    hopened opened.length stage List.getElem?_concat_length]
                  exact hlives
              | succ k =>
                  rw [Trace.eventsAt_atStage_append_of_lt]
                  exact hbefore k other hk
            · rw [List.length_cons, Trace.eventsAt_atStage_append_of_lt]
              exact hlast
            · rw [List.length_cons] at hk
              rw [Trace.eventsAt_atStage_append_of_ne (by omega), hafter k (by omega)]
          · rw [openStages_of_unprepared hmade hprepared, List.append_assoc] at h
            cases h
            refine ⟨[], group, rest, _, rfl, hrefused, fun k s hs => ?_, nofun, ?_, fun k hk => ?_⟩
            · have hk : k < opened.length := (List.getElem?_eq_some_iff.mp hs).1
              rw [Trace.eventsAt_atStage_append_of_ne (by omega),
                Trace.eventsAt_atStage_append_of_ne (by omega)]
              exact hclosed k s hs
            · rw [List.length_nil, Nat.add_zero, Trace.eventsAt_atStage_append_self,
                Trace.eventsAt_atStage_append_self, hnone _ (Nat.le_refl _), List.append_nil]
            · rw [List.length_nil, Nat.add_zero] at hk
              rw [Trace.eventsAt_atStage_append_of_ne (by omega),
                Trace.eventsAt_atStage_append_of_ne (by omega), hnone k (Nat.le_of_lt hk)]

/-- What is told of the directives of an opened pipeline, when it is opened, used and dropped. -/
theorem lives_of_openStages {p : Pipeline}
    (hopen : openStages registry [] groups = (.ok p.stages, trace)) (operations : List Operation) :
    (∀ k group, groups[k]? = some group → ∃ work,
        Lives registry group work ((trace ++ p.useAndDrop operations).eventsAt k)) ∧
      ∀ k, groups.length ≤ k → (trace ++ p.useAndDrop operations).eventsAt k = [] := by
  obtain ⟨hbegun, helsewhere⟩ := begun_of_openStages hopen
  simp only [List.length_nil, Nat.zero_add, Nat.not_lt_zero, false_or] at hbegun helsewhere
  refine ⟨fun k group hk => ?_, fun k hk => ?_⟩
  · obtain ⟨s, hs, hprepared⟩ := hbegun k group hk
    obtain ⟨last, work, hworks, hused⟩ :=
      (p.eventsAt_useAndDrop operations k).1 s hs hprepared.alive
    refine ⟨work, ?_⟩
    rw [Trace.eventsAt_append, hused, ← List.append_assoc]
    exact hprepared.lives hworks
  · obtain ⟨made, hstages, hopens⟩ := openStages_opens hopen
    rw [List.nil_append] at hstages
    have hnone : p.stages[k]? = none := by
      rw [hstages]
      exact List.getElem?_eq_none (hopens.length_eq ▸ hk)
    rw [Trace.eventsAt_append, helsewhere k hk, (p.eventsAt_useAndDrop operations k).2 hnone]
    rfl

/-- Whatever happens after the stages were opened, all directives were prepared before the first of them
is executed. -/
theorem prepared_before_executed (hopen : openStages registry [] groups = (.ok stages, trace))
    {rest before after : Trace} {k : Nat}
    (hsplit : trace ++ rest = before ++ (k, .executed) :: after) :
    ∀ j < groups.length, (j, .prepared true) ∈ before := by
  intro j hj
  obtain ⟨hbegun, helsewhere⟩ := begun_of_openStages hopen
  simp only [List.length_nil, Nat.zero_add, Nat.not_lt_zero, false_or] at hbegun helsewhere
  have hcalls : ∀ i < groups.length, (trace.eventsAt i).filter Event.isCall =
      [.created, .prepared true] := by
    intro i hi
    obtain ⟨s, -, hprepared⟩ := hbegun i _ (List.getElem?_eq_getElem hi)
    exact hprepared.calls
  have hnone : (k, Event.executed) ∉ trace := by
    intro hmem
    have hevent : Event.executed ∈ (trace.eventsAt k).filter Event.isCall :=
      List.mem_filter.mpr ⟨Trace.mem_eventsAt.mpr hmem, rfl⟩
    rcases Nat.lt_or_ge k groups.length with hk | hk
    · rw [hcalls k hk] at hevent
      simp at hevent
    · rw [helsewhere k hk] at hevent
      cases hevent
  have hprepared : Event.prepared true ∈ (trace.eventsAt j).filter Event.isCall := by
    rw [hcalls j hj]
    simp
  exact subset_before hsplit hnone (Trace.mem_eventsAt.mp (List.mem_filter.mp hprepared).1)

end Opening

/-- The life of a pipeline, with whatever directives its registry holds and whatever is done with it.
If it was opened, there is one directive for each group; it is created, prepared once, executed some
times and destroyed once, in this order, each time in the state that the call before has left, and
no directive is executed before all are prepared. If it was not opened, nothing was executed, and
what had been created is destroyed: each directive before the group that was refused, and the one of
that group if there was one. -/
theorem lifecycle (table : SymbolTable) (registry : Registry) (settings : Settings)
    (operations : List Operation) :
    match ofTable table registry settings with
    | (.ok p, opening) =>
        let trace := opening ++ p.useAndDrop operations
        (∀ k group, table.groups[k]? = some group →
          ∃ work, Lives registry group work (trace.eventsAt k)) ∧
        (∀ k < table.groups.length, ∃ batches, trace.history k =
          [.created, .prepared true] ++ List.replicate batches .executed ++ [.destroyed]) ∧
        (∀ k, table.groups.length ≤ k → trace.eventsAt k = []) ∧
        ∀ before after k, trace = before ++ (k, .executed) :: after →
          ∀ j < table.groups.length, (j, .prepared true) ∈ before
    | (.error e, opening) =>
        (check table registry settings = .error e ∧ opening = []) ∨
        ∃ before group after last, table.groups = before ++ group :: after ∧
          Refused registry group e last ∧
          (∀ k group, before[k]? = some group → Lives registry group [] (opening.eventsAt k)) ∧
          opening.eventsAt before.length = last ∧
          (∀ k, before.length < k → opening.eventsAt k = []) ∧
          ∀ k, opening.history k =
            if k < before.length then [.created, .prepared true, .destroyed]
            else if k = before.length then last.filter Event.isCall
            else [] := by
  unfold ofTable
  cases hcheck : check table registry settings with
  | error e => exact Or.inl ⟨rfl, rfl⟩
  | ok _ =>
      rcases hopen : openStages registry [] table.groups with ⟨outcome, opening⟩
      cases outcome with
      | error e =>
          obtain ⟨before, group, after, last, hgroups, hrefused, -, hbefore, hlast, hafter⟩ :=
            refused_of_openStages (List.forall_mem_nil _) hopen
          simp only [List.length_nil, Nat.zero_add] at hbefore hlast hafter
          refine Or.inr ⟨before, group, after, last, hgroups, hrefused, hbefore, hlast, hafter,
            fun k => ?_⟩
          rw [Trace.history]
          rcases Nat.lt_trichotomy k before.length with hk | rfl | hk
          · rw [if_pos hk, (hbefore k _ (List.getElem?_eq_getElem hk)).calls.1]
            rfl
          · rw [if_neg (Nat.lt_irrefl _), if_pos rfl, hlast]
          · rw [if_neg (Nat.not_lt_of_gt hk), if_neg (Nat.ne_of_gt hk), hafter k hk]
            rfl
      | ok stages =>
          let p : Pipeline := ⟨table, stages, .fresh settings.environment⟩
          obtain ⟨hlives, helsewhere⟩ := lives_of_openStages (p := p) hopen operations
          refine ⟨hlives, fun k hk => ?_, helsewhere,
            fun before after k hsplit => prepared_before_executed hopen hsplit⟩
          obtain ⟨work, hlife⟩ := hlives k _ (List.getElem?_eq_getElem hk)
          obtain ⟨hcalls, batches, hbatches⟩ := hlife.calls
          exact ⟨batches, by rw [Trace.history, hcalls, hbatches]⟩

/-- A directive that leaves a line whenever it is called, and knows at the end how many batches it was
executed on. It refuses a batch without rows. -/
def talking (accepts : Bool) : Directive where
  State := Nat
  start := 0
  usage := .ofName "talk"
  prepare := fun _ batches =>
    ⟨if accepts then .ok () else .error (.initialization "talk" "never ready"), batches,
      [if accepts then "ready" else "not ready"]⟩
  execute := fun rows _ batches =>
    ⟨if rows.isEmpty then .error (.execution "talk" "" "no rows") else .ok rows, batches + 1, [],
      [if rows.isEmpty then "nothing" else "some rows"]⟩
  destroy := fun batches => ["executed " ++ toString batches]

def talkers : Registry := .ofList [("talk", talking true), ("balk", talking false)]

/-- The table of a recipe that uses directives without arguments. -/
def tableOf (names : List String) : SymbolTable :=
  ⟨names.map fun name => ⟨[.directiveName name], default⟩, [], none⟩

/-- A run that fails at its second batch. The pipeline is closed after it, and used again. -/
def failingRun : List Operation :=
  [.run [[.empty], [], [.empty]], .close, .executeBatch [.empty] false, .close]

/-- The second batch fails at the first directive, so the other one does not get it. Of a pipeline that
cannot be opened, only the directives up to the one that refused its arguments were created. -/
theorem lifecycle_talking :
    (∃ p opening, ofTable (tableOf ["talk", "talk"]) talkers .testing = (.ok p, opening) ∧
      let trace := opening ++ p.useAndDrop failingRun
      trace.eventsAt 0 =
        [.created, .prepared true, .noted "ready", .executed, .noted "some rows", .executed,
          .noted "nothing", .destroyed, .noted "executed 2"] ∧
      trace.eventsAt 1 =
        [.created, .prepared true, .noted "ready", .executed, .noted "some rows", .destroyed,
          .noted "executed 1"] ∧
      ∃ work, Lives talkers ⟨[.directiveName "talk"], default⟩ work (trace.eventsAt 1)) ∧
    ∃ opening, ofTable (tableOf ["talk", "balk", "talk"]) talkers .testing =
        (.error (.directive (.initialization "talk" "never ready")), opening) ∧
      opening.eventsAt 0 =
        [.created, .prepared true, .noted "ready", .destroyed, .noted "executed 0"] ∧
      opening.eventsAt 1 =
        [.created, .prepared false, .noted "not ready", .destroyed, .noted "executed 0"] ∧
      opening.eventsAt 2 = [] ∧
      ∃ before group after last, (tableOf ["talk", "balk", "talk"]).groups = before ++ group :: after ∧
        Refused talkers group (.directive (.initialization "talk" "never ready")) last := by
  have hopened := lifecycle (tableOf ["talk", "talk"]) talkers .testing failingRun
  have hrefused := lifecycle (tableOf ["talk", "balk", "talk"]) talkers .testing []
  obtain ⟨hlives, -⟩ := hopened
  refine ⟨⟨_, _, rfl, by decide +kernel, by decide +kernel, hlives 1 _ rfl⟩,
    _, rfl, by decide +kernel, by decide +kernel, by decide +kernel, ?_⟩
  obtain ⟨hcheck, -⟩ | ⟨before, group, after, last, hgroups, hlast, -⟩ := hrefused
  · cases hcheck
  · exact ⟨before, group, after, last, hgroups, hlast⟩

end RowRecipe.Pipeline
