import Mathlib.Data.List.Forall2
import RowRecipe.Pipeline.Basic
import RowRecipe.Proofs.Directive.Builtin
import RowRecipe.Proofs.Directive.History

/-!
Opened pipelines. What is known of a pipeline that was opened: its groups, and for every group a
stage whose directive has accepted the arguments in the group. A group that cannot be opened is
refused for one of three reasons.
-/

namespace RowRecipe

/-- The stage stands for the group: its directive is the one of the group's name, and has been
prepared with the group's arguments. -/
structure Stage.Opens (registry : Registry) (group : TokenGroup) (stage : Stage) : Prop where
  name : group.directiveName? = some stage.name
  span : stage.span = group.span
  directive : registry.get? stage.name = some stage.directive
  prepared : ∃ args, Arguments.bind stage.directive.usage group = .ok args ∧
    (stage.directive.prepare args stage.directive.start).outcome = .ok () ∧
    stage.state = (stage.directive.prepare args stage.directive.start).state
  alive : stage.isDestroyed = false

namespace Pipeline

theorem stageOf_ok {registry : Registry} {group : TokenGroup} {stage : Stage}
    (h : stageOf registry group = .ok stage) :
    ∃ name d, group.directiveName? = some name ∧ registry.get? name = some d ∧
      stage = .ofDirective name group.span d := by
  unfold stageOf at h
  cases hname : group.directiveName? with
  | none =>
      rw [hname] at h
      cases h
  | some name =>
      cases hdirective : registry.get? name with
      | none =>
          simp only [hname, hdirective] at h
          cases h
      | some d =>
          simp only [hname, hdirective] at h
          exact ⟨name, d, rfl, hdirective, (Except.ok.inj h).symm⟩

section Preparing

variable {registry : Registry} {group : TokenGroup} {made stage : Stage} {begun : List Event}

/-- The stage was made for the group, and its directive accepted the arguments in the group. The
events are what is told of this. -/
inductive Begun (registry : Registry) (group : TokenGroup) : Stage → List Event → Prop where
  | prepared {name : String} {d : Directive} {args : Arguments}
      (hname : group.directiveName? = some name) (hknown : registry.get? name = some d)
      (hbound : Arguments.bind d.usage group = .ok args)
      (haccepts : (d.prepare args d.start).outcome = .ok ()) :
      Begun registry group ⟨name, group.span, d, (d.prepare args d.start).state, false⟩
        (d.beginning args)

/-- Why a group could not be opened, and the life of the directive that was created for it: there is
none if the directive is not known; otherwise it is destroyed, and was not prepared or refused its
arguments. -/
inductive Refused (registry : Registry) (group : TokenGroup) : RecipeError → List Event → Prop where
  | unknown {e : RecipeError} (h : stageOf registry group = .error e) :
      Refused registry group e []
  | notBound {name : String} {d : Directive} {e : BindError}
      (hname : group.directiveName? = some name) (hknown : registry.get? name = some d)
      (h : Arguments.bind d.usage group = .error e) :
      Refused registry group (.bind e) (.created :: d.ending d.start)
  | notPrepared {name : String} {d : Directive} {args : Arguments} {e : DirectiveError}
      (hname : group.directiveName? = some name) (hknown : registry.get? name = some d)
      (hbound : Arguments.bind d.usage group = .ok args)
      (h : (d.prepare args d.start).outcome = .error e) :
      Refused registry group (.directive e)
        (d.beginning args ++ d.ending (d.prepare args d.start).state)

theorem Begun.alive (h : Begun registry group stage begun) : stage.isDestroyed = false := by
  cases h
  rfl

theorem Begun.calls (h : Begun registry group stage begun) :
    begun.filter Event.isCall = [.created, .prepared true] := by
  cases h with
  | prepared hname hknown hbound haccepts =>
      rw [Directive.calls_beginning, haccepts]
      rfl

theorem Begun.opens (h : Begun registry group stage begun) : stage.Opens registry group := by
  cases h with
  | prepared hname hknown hbound haccepts =>
      exact ⟨hname, rfl, hknown, ⟨_, hbound, haccepts, rfl⟩, rfl⟩

/-- What preparing a new stage does: its directive accepts its arguments, or the group is refused and
the stage is still to be closed. -/
theorem prepareStage_cases {outcome : Except RecipeError Unit} {events : List Event}
    (hmade : stageOf registry group = .ok made)
    (h : prepareStage group made = (outcome, stage, events)) :
    (outcome = .ok () ∧ Begun registry group stage (.created :: events)) ∨
      ∃ e, outcome = .error e ∧ Refused registry group e (.created :: events ++ stage.close.2) := by
  obtain ⟨name, d, hname, hknown, rfl⟩ := stageOf_ok hmade
  unfold prepareStage at h
  cases hbound : Arguments.bind (Stage.ofDirective name group.span d).usage group with
  | error e =>
      rw [hbound] at h
      cases h
      right
      exact ⟨_, rfl, .notBound hname hknown hbound⟩
  | ok args =>
      have hprepare : (Stage.ofDirective name group.span d).prepare args =
          ((d.prepare args d.start).outcome,
            ⟨name, group.span, d, (d.prepare args d.start).state, false⟩,
            .prepared (d.prepare args d.start).outcome.isOk ::
              (d.prepare args d.start).notes.map .noted) := rfl
      simp only [hbound, hprepare] at h
      cases houtcome : (d.prepare args d.start).outcome with
      | ok _ =>
          rw [houtcome] at h
          cases h
          left
          refine ⟨rfl, ?_⟩
          rw [← houtcome]
          exact .prepared hname hknown hbound houtcome
      | error e =>
          rw [houtcome] at h
          cases h
          right
          refine ⟨_, rfl, ?_⟩
          rw [← houtcome]
          exact .notPrepared hname hknown hbound houtcome

end Preparing

section Steps

variable {registry : Registry} {group : TokenGroup} {made stage : Stage} {e : RecipeError}
  {events : List Event}

/-- Opening closes what it has opened when a directive is not known. -/
theorem openStages_of_unknown (hmade : stageOf registry group = .error e) (opened : List Stage)
    (rest : List TokenGroup) :
    openStages registry opened (group :: rest) = (.error e, (closeStages 0 opened).2) := by
  simp only [openStages, hmade]

/-- Opening closes a stage that cannot be prepared, and then what it has opened before. -/
theorem openStages_of_unprepared (hmade : stageOf registry group = .ok made)
    (hprepared : prepareStage group made = (.error e, stage, events)) (opened : List Stage)
    (rest : List TokenGroup) :
    openStages registry opened (group :: rest) =
      (.error e, .atStage opened.length (.created :: events) ++
        .atStage opened.length stage.close.2 ++ (closeStages 0 opened).2) := by
  simp only [openStages, hmade, hprepared]

theorem openStages_of_prepared (hmade : stageOf registry group = .ok made)
    (hprepared : prepareStage group made = (.ok (), stage, events)) (opened : List Stage)
    (rest : List TokenGroup) :
    openStages registry opened (group :: rest) =
      ((openStages registry (opened ++ [stage]) rest).1,
        .atStage opened.length (.created :: events) ++
          (openStages registry (opened ++ [stage]) rest).2) := by
  simp only [openStages, hmade, hprepared]

/-- Opening succeeds for a group and those behind it if a stage is made and prepared for the group and
opening goes on behind it. -/
theorem openStages_cons_eq_ok {opened stages : List Stage} {rest : List TokenGroup} {trace : Trace}
    (h : openStages registry opened (group :: rest) = (.ok stages, trace)) :
    ∃ made stage events more, stageOf registry group = .ok made ∧
      prepareStage group made = (.ok (), stage, events) ∧
      openStages registry (opened ++ [stage]) rest = (.ok stages, more) ∧
      trace = .atStage opened.length (.created :: events) ++ more := by
  cases hmade : stageOf registry group with
  | error e =>
      rw [openStages_of_unknown hmade] at h
      cases h
  | ok made =>
      rcases hprepared : prepareStage group made with ⟨_ | _, stage, events⟩
      · rw [openStages_of_unprepared hmade hprepared] at h
        cases h
      · rw [openStages_of_prepared hmade hprepared] at h
        rcases hrest : openStages registry (opened ++ [stage]) rest with ⟨outcome, more⟩
        rw [hrest] at h
        obtain ⟨rfl, rfl⟩ := Prod.mk.inj h
        exact ⟨made, stage, events, more, rfl, hprepared, hrest, rfl⟩

end Steps

/-- Opening stages gives one for every group, in the order of the groups. -/
theorem openStages_opens {registry : Registry} {opened stages : List Stage}
    {groups : List TokenGroup} {trace : Trace}
    (h : openStages registry opened groups = (.ok stages, trace)) :
    ∃ made, stages = opened ++ made ∧ List.Forall₂ (Stage.Opens registry) groups made := by
  induction groups generalizing opened trace with
  | nil =>
      cases h
      exact ⟨[], (List.append_nil _).symm, .nil⟩
  | cons group rest ih =>
      obtain ⟨made, stage, events, more, hmade, hprepared, hrest, -⟩ := openStages_cons_eq_ok h
      obtain ⟨-, hbegun⟩ | ⟨e, he, -⟩ := prepareStage_cases hmade hprepared
      · obtain ⟨last, rfl, hlast⟩ := ih hrest
        exact ⟨stage :: last, (List.append_cons opened stage last).symm, .cons hbegun.opens hlast⟩
      · cases he

/-- An opened pipeline has a stage for every group of its table, and nothing in memory. -/
theorem ofTable_opens {table : SymbolTable} {registry : Registry} {settings : Settings}
    {p : Pipeline} (h : (ofTable table registry settings).1 = .ok p) :
    p.table = table ∧ List.Forall₂ (Stage.Opens registry) table.groups p.stages ∧
      p.context = .fresh settings.environment := by
  unfold ofTable at h
  cases hcheck : check table registry settings with
  | error e =>
      simp only [hcheck] at h
      cases h
  | ok _ =>
      rcases hopen : openStages registry [] table.groups with ⟨outcome, trace⟩
      simp only [hcheck, hopen] at h
      cases outcome with
      | error e => cases h
      | ok stages =>
          obtain ⟨made, rfl, hmade⟩ := openStages_opens hopen
          cases h
          exact ⟨rfl, hmade, rfl⟩

/-- A compiled pipeline is the opened one of the table of its recipe. -/
theorem compile_opens {source : String} {registry : Registry} {settings : Settings} {p : Pipeline}
    (h : (compile source registry settings).1 = .ok p) :
    SymbolTable.compile source = .ok p.table ∧
      List.Forall₂ (Stage.Opens registry) p.table.groups p.stages ∧
      p.context = .fresh settings.environment := by
  unfold compile at h
  cases htable : SymbolTable.compile source with
  | error e =>
      rw [htable] at h
      cases h
  | ok table =>
      rw [htable] at h
      obtain ⟨rfl, hopens⟩ := ofTable_opens h
      exact ⟨rfl, hopens⟩

/-- Every stage of a compiled pipeline adds up, if its recipe can use no other directive. -/
theorem directive_of_compile {source : String} {settings : Settings} {p : Pipeline}
    (h : (compile source .builtin settings).1 = .ok p) :
    ∀ s ∈ p.stages, s.directive = aggregateStats := by
  intro s hs
  obtain ⟨-, hopens, -⟩ := compile_opens h
  obtain ⟨group, -, hstage⟩ := Outcome.exists_mem_of_forall₂ hopens s hs
  exact (Registry.get?_builtin hstage.directive).2

end Pipeline

end RowRecipe
