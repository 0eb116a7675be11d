import RowRecipe.Pipeline.Basic

/-!
Histories of directives. A trace tells what happened to all directives of a pipeline; what it tells of
one of them are its calls, each with the lines that the directive left in it. So an account of the
calls themselves, which hands the directive a state and takes the next one from it, can be compared
with what is told. While a pipeline is in use, what is told of a stage grows in one of few ways,
which `Stage.Course` lists: its directive is executed while it is not destroyed, it is destroyed
once, and nothing happens to it after that.
-/

namespace RowRecipe

/-- The event is a call on the directive or its creation, and not a line that it has left. -/
def Event.isCall : Event → Bool
  | .noted _ => false
  | _ => true

/-- All that a trace tells of the directive at a position, in order. -/
def Trace.eventsAt (position : Nat) (trace : Trace) : List Event :=
  (trace.filter fun p => p.1 == position).map Prod.snd

/-- What happened to the directive at a position, in order, without the lines that it left. -/
def Trace.history (position : Nat) (trace : Trace) : List Event :=
  (trace.eventsAt position).filter Event.isCall

namespace Trace

variable {position : Nat} {first second : Trace} {event : Event}

theorem eventsAt_append :
    eventsAt position (first ++ second) = eventsAt position first ++ eventsAt position second := by
  rw [eventsAt, List.filter_append, List.map_append, eventsAt, eventsAt]

theorem eventsAt_atStage (position : Nat) (events : List Event) :
    eventsAt position (atStage position events) = events := by
  induction events with
  | nil => rfl
  | cons event rest ih =>
      rw [eventsAt, atStage] at ih
      rw [eventsAt, atStage, List.map_cons, List.filter_cons, if_pos (beq_self_eq_true position),
        List.map_cons, ih]

theorem mem_eventsAt : event ∈ eventsAt position first ↔ (position, event) ∈ first := by
  simp [eventsAt]

/-- What happens at other positions does not matter. -/
theorem eventsAt_eq_nil (h : ∀ p ∈ first, p.1 ≠ position) : eventsAt position first = [] := by
  rw [List.eq_nil_iff_forall_not_mem]
  exact fun event hevent => h _ (mem_eventsAt.mp hevent) rfl

/-- What is told of a stage itself comes before what the rest of the trace tells of it. -/
theorem eventsAt_atStage_append_self (position : Nat) (events : List Event) :
    eventsAt position (atStage position events ++ second) = events ++ eventsAt position second := by
  rw [eventsAt_append, eventsAt_atStage]

/-- What is told of one stage is not told of another. -/
theorem eventsAt_atStage_append_of_ne {other : Nat} (h : other ≠ position) (events : List Event) :
    eventsAt position (atStage other events ++ second) = eventsAt position second := by
  rw [eventsAt_append, eventsAt_eq_nil, List.nil_append]
  intro p hp
  obtain ⟨event, -, rfl⟩ := List.mem_map.mp hp
  exact h

/-- What is told of the stage at a position, when the rest of the trace tells of later ones. -/
theorem eventsAt_atStage_append (h : ∀ p ∈ second, position < p.1) (events : List Event) :
    eventsAt position (atStage position events ++ second) = events := by
  rw [eventsAt_atStage_append_self, eventsAt_eq_nil fun p hp => Nat.ne_of_gt (h p hp),
    List.append_nil]

/-- What is told of a stage behind the one at a position. -/
theorem eventsAt_atStage_append_of_lt (position k : Nat) (events : List Event) :
    eventsAt (position + (k + 1)) (atStage position events ++ second) =
      eventsAt (position + 1 + k) second := by
  rw [eventsAt_atStage_append_of_ne (by omega), Nat.add_right_comm, Nat.add_assoc]

end Trace

theorem filter_isCall_noted (notes : List String) :
    (notes.map Event.noted).filter Event.isCall = [] := by
  rw [List.filter_eq_nil_iff]
  intro event hevent
  obtain ⟨line, -, rfl⟩ := List.mem_map.mp hevent
  exact Bool.false_ne_true

theorem filter_isCall_cons {event : Event} (h : event.isCall = true) (notes : List String) :
    (event :: notes.map .noted).filter Event.isCall = [event] := by
  rw [List.filter_cons_of_pos h, filter_isCall_noted]

namespace Directive

variable {d : Directive} {state last : d.State} {events : List Event}

/-- What is told of the directive when it is created and prepared with arguments. -/
def beginning (d : Directive) (args : Arguments) : List Event :=
  let p := d.prepare args d.start
  .created :: .prepared p.outcome.isOk :: p.notes.map .noted

/-- What is told of the directive when it is destroyed in a state. -/
def ending (d : Directive) (state : d.State) : List Event :=
  .destroyed :: (d.destroy state).map .noted

/-- From a state, the directive is executed some times and reaches another state: each time with some
rows, some view of the memory and the state that it has reached by then. The events are what is told
of this. -/
inductive Works (d : Directive) : d.State → d.State → List Event → Prop where
  | rests {state : d.State} : Works d state state []
  | executed {state last : d.State} {events : List Event} (rows : List Row) (v : View)
      (h : Works d (d.execute rows v state).state last events) :
      Works d state last
        ((.executed :: (d.execute rows v state).notes.map .noted) ++ events)

theorem Works.calls (h : d.Works state last events) :
    ∃ batches, events.filter Event.isCall = List.replicate batches .executed := by
  induction h with
  | rests => exact ⟨0, rfl⟩
  | executed rows v _ ih =>
      obtain ⟨batches, hbatches⟩ := ih
      refine ⟨batches + 1, ?_⟩
      rw [List.filter_append, filter_isCall_cons rfl, hbatches, List.replicate_succ,
        List.singleton_append]

theorem calls_beginning (d : Directive) (args : Arguments) :
    (d.beginning args).filter Event.isCall =
      [.created, .prepared (d.prepare args d.start).outcome.isOk] := by
  rw [beginning, List.filter_cons_of_pos rfl, filter_isCall_cons rfl]

theorem calls_ending (d : Directive) (state : d.State) :
    (d.ending state).filter Event.isCall = [.destroyed] := filter_isCall_cons rfl _

end Directive

namespace Stage

/-- What can happen to the stage at a position, if there is one, between two moments, and what is told
of it. -/
inductive Course : Option Stage → Option Stage → List Event → Prop where
  | refl (s : Option Stage) : Course s s []
  | executed {s : Stage} {last : Option Stage} {events : List Event} (rows : List Row) (v : View)
      (halive : s.isDestroyed = false)
      (h : Course (some { s with state := (s.directive.execute rows v s.state).state }) last events) :
      Course (some s) last
        ((.executed :: (s.directive.execute rows v s.state).notes.map .noted) ++ events)
  | destroyed {s : Stage} (halive : s.isDestroyed = false) :
      Course (some s) (some { s with isDestroyed := true }) (s.directive.ending s.state)

namespace Course

variable {before between after : Option Stage} {first second : List Event}

theorem trans (hfirst : Course before between first) (hsecond : Course between after second) :
    Course before after (first ++ second) := by
  induction hfirst with
  | refl s => exact hsecond
  | executed rows v halive _ ih =>
      rw [List.append_assoc]
      exact .executed rows v halive (ih hsecond)
  | destroyed halive =>
      -- A destroyed stage stays as it is.
      cases hsecond with
      | refl =>
          rw [List.append_nil]
          exact .destroyed halive
      | executed rows v hagain => cases hagain
      | destroyed hagain => cases hagain

/-- A stage that was at work and ends destroyed was executed some times, and then its directive was
destroyed in the state that it had reached. -/
theorem works {s last : Stage} (h : Course (some s) (some last) first)
    (halive : s.isDestroyed = false) (hended : last.isDestroyed = true) :
    ∃ state work, s.directive.Works s.state state work ∧
      first = work ++ s.directive.ending state := by
  generalize hs : some s = before at h
  generalize hlast : some last = after at h
  induction h generalizing s with
  | refl =>
      cases hs
      cases hlast
      rw [halive] at hended
      cases hended
  | executed rows v _ _ ih =>
      obtain rfl := Option.some.inj hs
      let next : Stage := { s with state := (s.directive.execute rows v s.state).state }
      have hnext : next.isDestroyed = false := halive
      obtain ⟨state, work, hwork, rfl⟩ := ih hnext rfl hlast
      refine ⟨state, _, .executed rows v hwork, ?_⟩
      rw [List.append_assoc]
  | destroyed _ =>
      obtain rfl := Option.some.inj hs
      exact ⟨s.state, [], .rests, rfl⟩

theorem eq_nil_of_absent (h : Course none after first) : after = none ∧ first = [] := by
  cases h
  exact ⟨rfl, rfl⟩

theorem isSome_of_some {s : Stage} (h : Course (some s) after first) : after.isSome = true := by
  generalize hs : some s = before at h
  induction h generalizing s with
  | refl => rw [← hs, Option.isSome_some]
  | executed _ _ _ _ ih => exact ih rfl
  | destroyed => rfl

end Course

variable {owner : Nat} {rows : List Row} {c d : Context} {s next : Stage} {events : List Event}

theorem course_execute {outcome : Except DirectiveError (List Row)}
    (h : s.execute owner rows c = (outcome, next, d, events)) :
    Course (some s) (some next) events := by
  unfold execute at h
  by_cases hdestroyed : s.isDestroyed
  · rw [if_pos hdestroyed] at h
    cases h
    exact .refl _
  · rw [if_neg hdestroyed] at h
    cases h
    rw [← List.append_nil (Event.executed :: _)]
    exact .executed rows ⟨c, owner⟩ (Bool.not_eq_true _ ▸ hdestroyed) (.refl _)

theorem close_of_alive (h : s.isDestroyed = false) :
    s.close = ({ s with isDestroyed := true }, s.directive.ending s.state) := by
  rw [close, h]
  rfl

theorem isDestroyed_close (s : Stage) : s.close.1.isDestroyed = true := by
  unfold close
  split
  · assumption
  · rfl

theorem course_close (s : Stage) : Course (some s) (some s.close.1) s.close.2 := by
  cases hdestroyed : s.isDestroyed with
  | true =>
      rw [close, hdestroyed]
      exact .refl _
  | false =>
      rw [close_of_alive hdestroyed]
      exact .destroyed hdestroyed

end Stage

end RowRecipe
