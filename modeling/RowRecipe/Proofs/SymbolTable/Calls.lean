import RowRecipe.Proofs.SymbolTable.Groups

/-!
Any use of a builder. In whatever order a builder is called, the table that it builds can be read off
the calls: every opening has its group, which holds what was pushed until a group was opened or closed
again, and names and versions are collected beside that.
-/

namespace RowRecipe.SymbolTable.Builder

/-- A call of a builder. -/
inductive Call where
  | openGroup (span : Span)
  | closeGroup
  | push (token : Token)
  | addLoadable (name : String)
  | setVersion (version : String)

namespace Call

/-- After the call the group that was open before it is open no longer. -/
def endsGroup : Call → Bool
  | .openGroup _ | .closeGroup => true
  | .push _ | .addLoadable _ | .setVersion _ => false

def token? : Call → Option Token
  | .push token => some token
  | _ => none

def loadable? : Call → Option String
  | .addLoadable name => some name
  | _ => none

def version? : Call → Option String
  | .setVersion version => some version
  | _ => none

end Call

/-- The builder after a call. A token that is refused leaves it as it was. -/
def perform (b : Builder) : Call → Builder
  | .openGroup span => b.openGroup span
  | .closeGroup => b.closeGroup
  | .push token => (b.push? token).getD b
  | .addLoadable name => b.addLoadable name
  | .setVersion version => b.setVersion version

/-- The builder after some calls. -/
def performAll (b : Builder) (calls : List Call) : Builder := calls.foldl perform b

/-- The tokens that the builder does not refuse when it is called. -/
def taken (b : Builder) : List Call → List Token
  | [] => []
  | call :: rest =>
      (call.token?.filter fun token => (b.push? token).isSome).toList ++ taken (b.perform call) rest

/-- What is pushed before a group is opened or closed. -/
def pushedFirst (calls : List Call) : List Token :=
  (calls.takeWhile fun call => !call.endsGroup).filterMap Call.token?

/-- For every opening, in the order of the calls, the group at its span of what is pushed until the
next opening or closing. -/
def openings : List Call → List TokenGroup
  | [] => []
  | .openGroup span :: rest => ⟨pushedFirst rest, span⟩ :: openings rest
  | _ :: rest => openings rest

/-- The last of the calls that open or close a group opens one. -/
def LeavesOpen (calls : List Call) : Prop :=
  ∃ before span after, calls = before ++ .openGroup span :: after ∧
    ∀ call ∈ after, call.endsGroup = false

/-- The group that is open, together with what the calls add to it. -/
def continued (b : Builder) (calls : List Call) : List TokenGroup :=
  b.current.toList.map fun group => ⟨group.tokens ++ pushedFirst calls, group.span⟩

theorem pushedFirst_of_ends (call : Call) (h : call.endsGroup = true) (rest : List Call) :
    pushedFirst (call :: rest) = [] := by
  rw [pushedFirst, List.takeWhile_cons_of_neg (by rw [h]; decide), List.filterMap_nil]

theorem pushedFirst_of_stays (call : Call) (h : call.endsGroup = false) (rest : List Call) :
    pushedFirst (call :: rest) = call.token?.toList ++ pushedFirst rest := by
  rw [pushedFirst, List.takeWhile_cons_of_pos (by rw [h]; rfl), List.filterMap_cons]
  cases call.token? <;> rfl

theorem closeGroup_table (b : Builder) :
    b.closeGroup.table = { b.table with groups := b.closeGroup.table.groups } := by
  obtain ⟨table, current⟩ := b
  cases current <;> rfl

theorem perform_push_table (b : Builder) (token : Token) :
    (b.perform (.push token)).table = b.table := by
  obtain ⟨table, current⟩ := b
  cases current <;> rfl

/-- Groups that are finished, the open group with what will be added to it, and the groups that are
still to be opened: a call moves on from one of these to the next and loses nothing. -/
theorem groups_perform (b : Builder) (call : Call) (rest : List Call) :
    (b.perform call).table.groups ++ (b.perform call).continued rest ++ openings rest =
      b.table.groups ++ b.continued (call :: rest) ++ openings (call :: rest) := by
  obtain ⟨table, current⟩ := b
  cases call with
  | openGroup span =>
      have hnone := pushedFirst_of_ends (.openGroup span) rfl rest
      cases current with
      | none => simp [perform, openGroup, closeGroup, continued, openings]
      | some group => simp [perform, openGroup, closeGroup, continued, openings, hnone]
  | closeGroup =>
      have hnone := pushedFirst_of_ends .closeGroup rfl rest
      cases current with
      | none => simp [perform, closeGroup, continued, openings]
      | some group => simp [perform, closeGroup, continued, openings, hnone]
  | push token =>
      have hfirst := pushedFirst_of_stays (.push token) rfl rest
      cases current with
      | none => simp [perform, push?, continued, openings]
      | some group => simp [perform, push?, continued, openings, hfirst, Call.token?]
  | addLoadable name =>
      have hfirst := pushedFirst_of_stays (.addLoadable name) rfl rest
      simp only [perform, addLoadable, continued, openings, hfirst, Call.token?]
      split <;> simp
  | setVersion version =>
      have hfirst := pushedFirst_of_stays (.setVersion version) rfl rest
      simp [perform, setVersion, continued, openings, hfirst, Call.token?]

theorem loadables_perform {b : Builder} {asked : List String}
    (h : b.table.loadables = asked.eraseDups) (call : Call) :
    (b.perform call).table.loadables = (asked ++ call.loadable?.toList).eraseDups := by
  have hclose : b.closeGroup.table.loadables = asked.eraseDups := by rw [closeGroup_table, h]
  cases call with
  | openGroup span => simpa [Call.loadable?, perform, openGroup] using hclose
  | closeGroup => simpa [Call.loadable?, perform] using hclose
  | push token => simpa [Call.loadable?, perform_push_table] using h
  | addLoadable name => exact addLoadable_loadables h name
  | setVersion version => simpa [Call.loadable?, perform, setVersion] using h

theorem version_perform {b : Builder} {versions : List String}
    (h : b.table.version = versions.getLast?) (call : Call) :
    (b.perform call).table.version = (versions ++ call.version?.toList).getLast? := by
  have hclose : b.closeGroup.table.version = versions.getLast? := by rw [closeGroup_table, h]
  cases call with
  | openGroup span => simpa [Call.version?, perform, openGroup] using hclose
  | closeGroup => simpa [Call.version?, perform] using hclose
  | push token => simpa [Call.version?, perform_push_table] using h
  | addLoadable name =>
      have hadd : (b.addLoadable name).table.version = b.table.version := by
        unfold addLoadable
        split <;> rfl
      simpa [Call.version?, perform] using hadd.trans h
  | setVersion version => exact List.getLast?_concat.symm

/-- A token is taken while a group is open, and it is one of what is pushed first then. -/
theorem taken_perform (b : Builder) (call : Call) (rest : List Call) :
    (call.token?.filter fun token => (b.push? token).isSome).toList ++
        (if (b.perform call).current.isSome then pushedFirst rest else []) ++
        (openings rest).flatMap TokenGroup.tokens =
      (if b.current.isSome then pushedFirst (call :: rest) else []) ++
        (openings (call :: rest)).flatMap TokenGroup.tokens := by
  obtain ⟨table, current⟩ := b
  cases call with
  | openGroup span =>
      have hnone := pushedFirst_of_ends (.openGroup span) rfl rest
      simp [perform, openGroup, openings, hnone, Call.token?]
  | closeGroup =>
      have hnone := pushedFirst_of_ends .closeGroup rfl rest
      cases current <;> simp [perform, closeGroup, openings, hnone, Call.token?]
  | push token =>
      have hfirst := pushedFirst_of_stays (.push token) rfl rest
      cases current <;> simp [perform, push?, openings, hfirst, Call.token?, Option.filter]
  | addLoadable name =>
      have hfirst := pushedFirst_of_stays (.addLoadable name) rfl rest
      simp only [perform, addLoadable, openings, hfirst, Call.token?]
      split <;> simp
  | setVersion version =>
      have hfirst := pushedFirst_of_stays (.setVersion version) rfl rest
      cases current <;> simp [perform, setVersion, openings, hfirst, Call.token?]

theorem groups_performAll (b : Builder) (calls : List Call) :
    (b.performAll calls).build.groups = b.table.groups ++ b.continued calls ++ openings calls := by
  induction calls generalizing b with
  | nil =>
      obtain ⟨table, current⟩ := b
      cases current <;> simp [performAll, build, closeGroup, continued, pushedFirst, openings]
  | cons call rest ih => exact (ih (b.perform call)).trans (groups_perform b call rest)

/-- A part of the table that every call adds its own to, in the end has what all calls add to it. -/
theorem gathered_performAll {α β : Type} (part : SymbolTable → β) (own : Call → Option α)
    (gather : List α → β) (hclose : own .closeGroup = none)
    (hstep : ∀ {b : Builder} {xs : List α}, part b.table = gather xs →
      ∀ call, part (b.perform call).table = gather (xs ++ (own call).toList))
    {b : Builder} {xs : List α} (h : part b.table = gather xs) (calls : List Call) :
    part (b.performAll calls).build = gather (xs ++ calls.filterMap own) := by
  induction calls generalizing b xs with
  | nil =>
      -- building closes the group that is open
      have hbuild := hstep h .closeGroup
      rwa [hclose] at hbuild
  | cons call rest ih =>
      have hrest := ih (hstep h call)
      rw [List.append_assoc] at hrest
      refine hrest.trans ?_
      cases hcall : own call <;> simp [hcall]

theorem taken_eq (b : Builder) (calls : List Call) :
    b.taken calls = (if b.current.isSome then pushedFirst calls else []) ++
      (openings calls).flatMap TokenGroup.tokens := by
  induction calls generalizing b with
  | nil => cases hb : b.current.isSome <;> simp [taken, pushedFirst, openings]
  | cons call rest ih => rw [taken, ih, ← List.append_assoc, taken_perform]

/-- After a call a group is open if the call opens one, or if one was open and the call does not end
it. -/
theorem current_perform (b : Builder) (call : Call) :
    (b.perform call).current.isSome = true ↔
      (∃ span, call = .openGroup span) ∨ b.current.isSome = true ∧ call.endsGroup = false := by
  obtain ⟨table, current⟩ := b
  cases call with
  | openGroup span => simp [perform, openGroup]
  | closeGroup => cases current <;> simp [perform, closeGroup, Call.endsGroup]
  | push token => cases current <;> simp [perform, push?, Call.endsGroup]
  | addLoadable name =>
      simp only [perform, addLoadable, Call.endsGroup]
      split <;> simp
  | setVersion version => simp [perform, setVersion, Call.endsGroup]

theorem leavesOpen_concat (calls : List Call) (call : Call) :
    LeavesOpen (calls ++ [call]) ↔
      (∃ span, call = .openGroup span) ∨ LeavesOpen calls ∧ call.endsGroup = false := by
  constructor
  · rintro ⟨before, span, after, heq, hafter⟩
    rcases List.eq_nil_or_concat' after with rfl | ⟨more, last, rfl⟩
    · exact .inl ⟨span, (List.cons.inj (List.append_inj' heq rfl).2).1⟩
    · have hsplit : calls ++ [call] = (before ++ .openGroup span :: more) ++ [last] := by
        rw [heq, List.append_assoc]
        simp
      obtain ⟨rfl, hlast⟩ := List.append_inj' hsplit rfl
      obtain rfl : call = last := (List.cons.inj hlast).1
      obtain ⟨hmore, hends⟩ := List.forall_mem_append.mp hafter
      exact .inr ⟨⟨before, span, more, rfl, hmore⟩, hends call (List.mem_singleton_self call)⟩
  · rintro (⟨span, rfl⟩ | ⟨⟨before, span, after, rfl, hafter⟩, hcall⟩)
    · exact ⟨calls, span, [], rfl, List.forall_mem_nil _⟩
    · refine ⟨before, span, after ++ [call], by simp, fun c hc => ?_⟩
      rcases List.mem_append.mp hc with hc | hc
      · exact hafter c hc
      · rw [List.mem_singleton.mp hc]
        exact hcall

/-- A group is open exactly if the last call that opened or closed one opened it. -/
theorem current_performAll (calls : List Call) :
    (empty.performAll calls).current.isSome = true ↔ LeavesOpen calls := by
  induction calls using List.reverseRecOn with
  | nil =>
      refine iff_of_false (by decide) ?_
      rintro ⟨before, span, after, heq, -⟩
      simp at heq
  | append_singleton calls call ih =>
      rw [leavesOpen_concat, ← ih, performAll, List.foldl_concat]
      exact current_perform _ _

/-- Whatever the calls of a new builder are, the table has one group for each opening, in order and at
its span, with what was pushed until the next opening or closing; each name that was asked for once,
in the order in which the names came first; and the last version. The tokens in the groups are
exactly those that were not refused, and a token is not refused exactly if the last opening or closing
before it was an opening. -/
theorem build_performAll (calls : List Call) :
    (empty.performAll calls).build =
        ⟨openings calls, (calls.filterMap Call.loadable?).eraseDups,
          (calls.filterMap Call.version?).getLast?⟩ ∧
      (openings calls).flatMap TokenGroup.tokens = empty.taken calls ∧
      ∀ token, ((empty.performAll calls).push? token).isSome = true ↔ LeavesOpen calls := by
  refine ⟨?_, ?_, fun token => ?_⟩
  · have hgroups : (empty.performAll calls).build.groups = openings calls :=
      groups_performAll empty calls
    have hloadables : (empty.performAll calls).build.loadables =
        ([] ++ calls.filterMap Call.loadable?).eraseDups :=
      gathered_performAll SymbolTable.loadables Call.loadable? List.eraseDups rfl loadables_perform rfl calls
    have hversion : (empty.performAll calls).build.version =
        ([] ++ calls.filterMap Call.version?).getLast? :=
      gathered_performAll SymbolTable.version Call.version? List.getLast? rfl version_perform rfl calls
    rw [List.nil_append] at hloadables hversion
    rw [← hgroups, ← hloadables, ← hversion]
  · exact (taken_eq empty calls).symm
  · rw [push?, Option.isSome_map]
    exact current_performAll calls

end RowRecipe.SymbolTable.Builder
