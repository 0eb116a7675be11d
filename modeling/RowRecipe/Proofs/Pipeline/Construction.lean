import Mathlib.Data.List.Basic
import RowRecipe.Proofs.AggregateStats.Preparing
import RowRecipe.Proofs.Pipeline.Opening
import RowRecipe.Proofs.SymbolTable.Outcomes

/-!
When a pipeline can be opened, and which problem is reported when it cannot. The recipe as a whole is
looked at first: its version, then the directives that it asks for. Its groups are looked at one after
the other, and the first one with a problem decides. A group has a problem of one kind only, since each
kind supposes that there is none of the kinds before it.
-/

namespace RowRecipe

namespace Pipeline

/-- A version is required and another one is declared. -/
def VersionsDiffer (table : SymbolTable) (settings : Settings) (required declared : String) : Prop :=
  settings.grammarVersion = some required ∧ table.version = some declared ∧
    Text.trimmed required ≠ declared

/-- The recipe as a whole cannot be run: its version is not the required one, or else it asks for a
directive that is not registered, and this is the first such one. -/
inductive Unfit (table : SymbolTable) (registry : Registry) (settings : Settings) :
    RecipeError → Prop
  | version {required declared : String} (h : VersionsDiffer table settings required declared) :
      Unfit table registry settings (.versionMismatch required declared)
  | loadable {before after : List String} {name : String}
      (hversions : ∀ required declared, ¬VersionsDiffer table settings required declared)
      (hloadables : table.loadables = before ++ name :: after)
      (hbefore : ∀ n ∈ before, registry.contains n = true) (hname : registry.contains name = false) :
      Unfit table registry settings (.unknownLoadable name)

/-- The recipe as a whole has no problem. -/
structure Fit (table : SymbolTable) (registry : Registry) (settings : Settings) : Prop where
  versions : ∀ required declared, ¬VersionsDiffer table settings required declared
  loadables : ∀ name ∈ table.loadables, registry.contains name = true

section Recipe

variable {table : SymbolTable} {registry : Registry} {settings : Settings} {e : RecipeError}

/-- With versions that do not differ, the check looks at what the recipe asks for. -/
theorem check_of_versions (h : ∀ required declared, ¬VersionsDiffer table settings required declared) :
    check table registry settings =
      match table.loadables.find? fun name => !registry.contains name with
      | some name => .error (.unknownLoadable name)
      | none => .ok () := by
  unfold check
  cases hrequired : settings.grammarVersion with
  | none => rfl
  | some required =>
      cases hdeclared : table.version with
      | none => rfl
      | some declared =>
          have hsame : Text.trimmed required = declared := by
            by_contra hne
            exact h required declared ⟨hrequired, hdeclared, hne⟩
          cases table.loadables.find? fun name => !registry.contains name with
          | none => simp only [if_pos hsame]
          | some name => simp only [if_pos hsame]

theorem check_of_unfit (h : Unfit table registry settings e) :
    check table registry settings = .error e := by
  cases h with
  | version hdiffer =>
      obtain ⟨hrequired, hdeclared, hne⟩ := hdiffer
      simp only [check, hrequired, hdeclared, if_neg hne]
  | @loadable before after name hversions hloadables hbefore hname =>
      have hfind : (table.loadables.find? fun n => !registry.contains n) = some name := by
        refine List.find?_eq_some_iff_append.mpr ⟨by simpa using hname, before, after, hloadables, ?_⟩
        exact fun n hn => by simpa using hbefore n hn
      rw [check_of_versions hversions, hfind]

theorem check_of_fit (h : Fit table registry settings) : check table registry settings = .ok () := by
  have hfind : (table.loadables.find? fun n => !registry.contains n) = none :=
    List.find?_eq_none.mpr fun n hn => by simpa using h.loadables n hn
  rw [check_of_versions h.versions, hfind]

/-- A recipe as a whole has a problem or none. -/
theorem unfit_or_fit (table : SymbolTable) (registry : Registry) (settings : Settings) :
    (∃ e, Unfit table registry settings e) ∨ Fit table registry settings := by
  by_cases hversions : ∀ required declared, ¬VersionsDiffer table settings required declared
  · cases hfind : table.loadables.find? fun name => !registry.contains name with
    | none =>
        rw [List.find?_eq_none] at hfind
        exact .inr ⟨hversions, fun name hname => by simpa using hfind name hname⟩
    | some name =>
        obtain ⟨hname, before, after, hsplit, hbefore⟩ := List.find?_eq_some_iff_append.mp hfind
        exact .inl ⟨_, .loadable hversions hsplit (fun n hn => by simpa using hbefore n hn)
          (by simpa using hname)⟩
  · push Not at hversions
    obtain ⟨required, declared, hdiffer⟩ := hversions
    exact .inl ⟨_, .version hdiffer⟩

end Recipe

/-- What is wrong with a group: it has no name, or its name is not registered, or else its tokens do
not fit the usage of its directive, or else the directive does not accept them. -/
inductive GroupProblem (registry : Registry) (group : TokenGroup) : RecipeError → Prop
  | nameless (h : group.directiveName? = none) :
      GroupProblem registry group (.bind (.missingDirectiveName group.span))
  | unknown {name : String} (hname : group.directiveName? = some name)
      (h : registry.get? name = none) : GroupProblem registry group (.unknownDirective name group.span)
  | unbound {name : String} {d : Directive} {e : BindError} (hname : group.directiveName? = some name)
      (hdirective : registry.get? name = some d) (h : Arguments.bind d.usage group = .error e) :
      GroupProblem registry group (.bind e)
  | unprepared {name : String} {d : Directive} {args : Arguments} {e : DirectiveError}
      (hname : group.directiveName? = some name) (hdirective : registry.get? name = some d)
      (hbound : Arguments.bind d.usage group = .ok args)
      (h : (d.prepare args d.start).outcome = .error e) : GroupProblem registry group (.directive e)

section Group

variable {registry : Registry} {group : TokenGroup} {stage : Stage} {opened : List Stage}
  {groups : List TokenGroup} {e : RecipeError}

theorem stageOf_of_directive {name : String} {d : Directive} (hname : group.directiveName? = some name)
    (hdirective : registry.get? name = some d) :
    stageOf registry group = .ok (.ofDirective name group.span d) := by
  simp only [stageOf, hname, hdirective]

/-- A stage that was just made is not destroyed, so its directive gets the arguments. -/
theorem prepareStage_of_bound {name : String} {d : Directive} {args : Arguments}
    (hbound : Arguments.bind d.usage group = .ok args) :
    prepareStage group (.ofDirective name group.span d) =
      ((d.prepare args d.start).outcome.mapError .directive,
        ⟨name, group.span, d, (d.prepare args d.start).state, false⟩,
        .prepared (d.prepare args d.start).outcome.isOk ::
          (d.prepare args d.start).notes.map .noted) := by
  have husage : (Stage.ofDirective name group.span d).usage = d.usage := rfl
  simp only [prepareStage, husage, hbound]
  rfl

/-- Opening stops at a group with a problem, and reports it. -/
theorem openStages_of_problem (opened : List Stage) (groups : List TokenGroup)
    (h : GroupProblem registry group e) :
    (openStages registry opened (group :: groups)).1 = .error e := by
  rw [openStages]
  cases h with
  | nameless hname => simp only [stageOf, hname]
  | unknown hname hdirective => simp only [stageOf, hname, hdirective]
  | @unbound name d e hname hdirective hbind =>
      have husage : (Stage.ofDirective name group.span d).usage = d.usage := rfl
      simp only [stageOf_of_directive hname hdirective, prepareStage, husage, hbind]
  | unprepared hname hdirective hbound hprepare =>
      simp only [stageOf_of_directive hname hdirective, prepareStage_of_bound hbound, hprepare,
        Except.mapError]

/-- Opening goes on behind a group that a stage stands for. -/
theorem openStages_of_opens (h : stage.Opens registry group) :
    (openStages registry opened (group :: groups)).1 =
      (openStages registry (opened ++ [stage]) groups).1 := by
  obtain ⟨name, span, d, state, isDestroyed⟩ := stage
  obtain ⟨hname, hspan, hdirective, ⟨args, hbound, houtcome, hstate⟩, halive⟩ := h
  dsimp only at hname hspan hdirective hbound houtcome hstate halive
  subst hspan hstate halive
  rw [openStages]
  simp only [stageOf_of_directive hname hdirective, prepareStage_of_bound hbound, houtcome,
    Except.mapError]

/-- A group has a problem, or a stage stands for it. -/
theorem problem_or_opens (registry : Registry) (group : TokenGroup) :
    (∃ e, GroupProblem registry group e) ∨ ∃ stage, Stage.Opens registry group stage := by
  cases hname : group.directiveName? with
  | none => exact .inl ⟨_, .nameless hname⟩
  | some name =>
      cases hdirective : registry.get? name with
      | none => exact .inl ⟨_, .unknown hname hdirective⟩
      | some d =>
          cases hbound : Arguments.bind d.usage group with
          | error e => exact .inl ⟨_, .unbound hname hdirective hbound⟩
          | ok args =>
              cases houtcome : (d.prepare args d.start).outcome with
              | error e => exact .inl ⟨_, .unprepared hname hdirective hbound houtcome⟩
              | ok _ =>
                  exact .inr ⟨⟨name, group.span, d, (d.prepare args d.start).state, false⟩, hname, rfl,
                    hdirective, ⟨args, hbound, houtcome, rfl⟩, rfl⟩

/-- A group with a problem has that one only. -/
theorem GroupProblem.unique {e' : RecipeError} (h : GroupProblem registry group e)
    (h' : GroupProblem registry group e') : e = e' := by
  have hopen := openStages_of_problem [] [] h
  rw [openStages_of_problem [] [] h'] at hopen
  exact (Except.error.inj hopen).symm

/-- No stage stands for a group with a problem. -/
theorem GroupProblem.not_opens (h : GroupProblem registry group e) : ¬stage.Opens registry group := by
  intro hopens
  have hopen := openStages_of_problem [] [] h
  rw [openStages_of_opens hopens] at hopen
  cases hopen

/-- The problem is that of a group, and there is a stage for every group before it. -/
def FirstGroupProblem (registry : Registry) (groups : List TokenGroup) (e : RecipeError) : Prop :=
  ∃ before group after, groups = before ++ group :: after ∧
    (∀ g ∈ before, ∃ stage, Stage.Opens registry g stage) ∧ GroupProblem registry group e

theorem firstGroupProblem_of_problem (h : GroupProblem registry group e) {e' : RecipeError} :
    FirstGroupProblem registry (group :: groups) e' ↔ e = e' := by
  constructor
  · rintro ⟨before, group', after, hsplit, hbefore, hproblem⟩
    rcases List.cons_eq_append_iff.mp hsplit with ⟨rfl, hcons⟩ | ⟨before, rfl, rfl⟩
    · obtain ⟨rfl, rfl⟩ := List.cons.inj hcons
      exact h.unique hproblem
    · obtain ⟨stage, hopens⟩ := hbefore group List.mem_cons_self
      exact (h.not_opens hopens).elim
  · rintro rfl
    exact ⟨[], group, groups, rfl, List.forall_mem_nil _, h⟩

theorem firstGroupProblem_of_opens (h : stage.Opens registry group) :
    FirstGroupProblem registry (group :: groups) e ↔ FirstGroupProblem registry groups e := by
  constructor
  · rintro ⟨before, group', after, hsplit, hbefore, hproblem⟩
    rcases List.cons_eq_append_iff.mp hsplit with ⟨rfl, hcons⟩ | ⟨before, rfl, rfl⟩
    · obtain ⟨rfl, rfl⟩ := List.cons.inj hcons
      exact (hproblem.not_opens h).elim
    · exact ⟨before, group', after, rfl, (List.forall_mem_cons.mp hbefore).2, hproblem⟩
  · rintro ⟨before, group', after, rfl, hbefore, hproblem⟩
    exact ⟨group :: before, group', after, rfl, List.forall_mem_cons.mpr ⟨⟨stage, h⟩, hbefore⟩,
      hproblem⟩

/-- Opening stages fails with the first problem of a group, and only then. -/
theorem openStages_eq_error (opened : List Stage) (groups : List TokenGroup) :
    (openStages registry opened groups).1 = .error e ↔ FirstGroupProblem registry groups e := by
  induction groups generalizing opened with
  | nil =>
      constructor
      · intro h
        cases h
      · rintro ⟨before, group, after, hsplit, -⟩
        cases before <;> cases hsplit
  | cons group rest ih =>
      rcases problem_or_opens registry group with ⟨e', hproblem⟩ | ⟨stage, hopens⟩
      · rw [openStages_of_problem _ _ hproblem, firstGroupProblem_of_problem hproblem,
          Except.error.injEq]
      · rw [openStages_of_opens hopens, firstGroupProblem_of_opens hopens, ih]

end Group

/-- What stands in the way of a pipeline: a problem of the recipe as a whole, or else the first one of
a group. -/
inductive Problem (table : SymbolTable) (registry : Registry) (settings : Settings) :
    RecipeError → Prop
  | unfit {e : RecipeError} (h : Unfit table registry settings e) : Problem table registry settings e
  | group {e : RecipeError} (hfit : Fit table registry settings)
      (h : FirstGroupProblem registry table.groups e) : Problem table registry settings e

section Table

variable {table : SymbolTable} {registry : Registry} {settings : Settings} {e : RecipeError}

theorem ofTable_of_unfit (h : Unfit table registry settings e) :
    ofTable table registry settings = (.error e, []) := by
  simp only [ofTable, check_of_unfit h]

theorem ofTable_of_fit (h : Fit table registry settings) :
    (ofTable table registry settings).1 =
      (openStages registry [] table.groups).1.map fun stages =>
        ⟨table, stages, .fresh settings.environment⟩ := by
  simp only [ofTable, check_of_fit h]
  rcases openStages registry [] table.groups with ⟨_ | _, trace⟩ <;> rfl

theorem ofTable_eq_error :
    (ofTable table registry settings).1 = .error e ↔ Problem table registry settings e := by
  rcases unfit_or_fit table registry settings with ⟨e', hunfit⟩ | hfit
  · rw [ofTable_of_unfit hunfit]
    constructor
    · intro h
      rw [← Except.error.inj h]
      exact .unfit hunfit
    · intro h
      cases h with
      | unfit hunfit' =>
          obtain rfl := Except.error.inj ((check_of_unfit hunfit).symm.trans (check_of_unfit hunfit'))
          rfl
      | group hfit => cases (check_of_fit hfit).symm.trans (check_of_unfit hunfit)
  · rw [ofTable_of_fit hfit, Outcome.map_eq_error, openStages_eq_error]
    constructor
    · exact .group hfit
    · intro h
      cases h with
      | unfit hunfit => cases (check_of_fit hfit).symm.trans (check_of_unfit hunfit)
      | group _ hfirst => exact hfirst

/-- A pipeline can be opened when the recipe as a whole has no problem and there is a stage for every
one of its groups. -/
structure Openable (table : SymbolTable) (registry : Registry) (settings : Settings) : Prop where
  fit : Fit table registry settings
  groups : ∀ group ∈ table.groups, ∃ stage, Stage.Opens registry group stage

theorem exists_ofTable_eq_ok :
    (∃ p, (ofTable table registry settings).1 = .ok p) ↔ Openable table registry settings := by
  constructor
  · rintro ⟨p, hp⟩
    rcases unfit_or_fit table registry settings with ⟨e, hunfit⟩ | hfit
    · rw [ofTable_of_unfit hunfit] at hp
      cases hp
    · refine ⟨hfit, Outcome.exists_forall₂_iff.mp ⟨p.stages, (ofTable_opens hp).2.1⟩⟩
  · intro h
    cases hopen : (ofTable table registry settings).1 with
    | ok p => exact ⟨p, rfl⟩
    | error e =>
        cases ofTable_eq_error.mp hopen with
        | unfit hunfit => cases (check_of_fit h.fit).symm.trans (check_of_unfit hunfit)
        | group _ hfirst =>
            obtain ⟨before, group, after, hgroups, -, hproblem⟩ := hfirst
            obtain ⟨stage, hopens⟩ := h.groups group (by rw [hgroups]; simp)
            exact (hproblem.not_opens hopens).elim

end Table

/-- Errors that a compiled recipe with the directives that every recipe can use does not meet. -/
inductive Internal : RecipeError → Prop
  | nameless (span : Span) : Internal (.bind (.missingDirectiveName span))
  | notSupplied (directive name : String) : Internal (.bind (.notSupplied directive name))
  /-- The directive was prepared with arguments that it cannot read. -/
  | unreadable (e : BindError) : Internal (.directive (.bind e))

theorem isNamed_of_compile {source : String} {table : SymbolTable}
    (h : SymbolTable.compile source = .ok table) : ∀ group ∈ table.groups, group.IsNamed := by
  rw [SymbolTable.compile] at h
  obtain ⟨tree, hparse, htree⟩ := Outcome.bind_eq_ok.mp h
  have hdecided := SymbolTable.ofTree_decided (Outcome.mapError_eq_ok.mp hparse)
  unfold Decided at hdecided
  split at hdecided
  · rw [hdecided] at htree
    cases htree
  · obtain ⟨table', htable', hgroups⟩ := hdecided
    obtain rfl := Except.ok.inj (htree.symm.trans htable')
    exact hgroups

theorem refused_ne_notSupplied {usage : Usage} {group : TokenGroup} {e : BindError}
    (h : Arguments.Refused usage group e) (directive name : String) : e ≠ .notSupplied directive name := by
  cases h with
  | nameless => exact fun h => nomatch h
  | @place tokens e _ hfirst =>
      obtain ⟨i, ⟨p, -, hclash⟩, -⟩ := hfirst
      generalize tokens[i]? = token at hclash
      cases hclash <;> exact fun h => nomatch h
  | extra => exact fun h => nomatch h

theorem not_internal_of_problem {group : TokenGroup} (hnamed : group.IsNamed) {e : RecipeError}
    (h : GroupProblem .builtin group e) : ¬Internal e := by
  intro hinternal
  cases h with
  | nameless hname =>
      obtain ⟨name, rest, htokens, -⟩ := hnamed
      rw [TokenGroup.directiveName?, htokens] at hname
      cases hname
  | unknown => cases hinternal
  | @unbound name d e _ _ hbind =>
      rcases Arguments.bind_spec d.usage group with ⟨e', hbind', hrefused⟩ | ⟨args, tokens, hbind', -⟩
      · obtain rfl := Except.error.inj (hbind.symm.trans hbind')
        cases hinternal with
        | nameless span => exact Arguments.bind_ne_missingDirectiveName hnamed d.usage span hbind
        | notSupplied directive name => exact refused_ne_notSupplied hrefused directive name rfl
      · cases hbind.symm.trans hbind'
  | @unprepared name d args e _ hdirective hbound hprepare =>
      cases hinternal with
      | unreadable e =>
          obtain ⟨-, rfl⟩ := Registry.get?_builtin hdirective
          rcases Arguments.bind_spec aggregateStats.usage group with
            ⟨e', hbind', -⟩ | ⟨args', tokens, hbind', -, hfits, hargs⟩
          · cases hbound.symm.trans hbind'
          · obtain rfl := Except.ok.inj (hbound.symm.trans hbind')
            exact AggregateStats.prepare_ne_bind hargs hfits _ e hprepare

/-- A pipeline is opened exactly when nothing stands in its way, and otherwise the first problem is
reported. A problem of the recipe as a whole comes first, and then nothing was created. An opened
pipeline has a stage for every group, under the name and the place of the group, and starts with no
batches, not in its last one, and with nothing in memory. A recipe that was compiled never lacks the
name of a directive, and the directives that every recipe can use find all arguments that they ask
for. -/
theorem opening_exact (table : SymbolTable) (registry : Registry) (settings : Settings) :
    (∀ e, (ofTable table registry settings).1 = .error e ↔ Problem table registry settings e) ∧
    ((∃ p, (ofTable table registry settings).1 = .ok p) ↔ Openable table registry settings) ∧
    (∀ e, Unfit table registry settings e → ofTable table registry settings = (.error e, [])) ∧
    (∀ p, (ofTable table registry settings).1 = .ok p →
      List.Forall₂ (Stage.Opens registry) table.groups p.stages ∧ p.table = table ∧
        p.context.batches = 0 ∧ p.context.isFinal = false ∧ p.context.memory.isEmpty = true) ∧
    ∀ source, SymbolTable.compile source = .ok table →
      ∀ e, (ofTable table .builtin settings).1 = .error e → ¬Internal e := by
  refine ⟨fun e => ofTable_eq_error, exists_ofTable_eq_ok, fun e => ofTable_of_unfit, ?_, ?_⟩
  · intro p hp
    obtain ⟨htable, hopens, hcontext⟩ := ofTable_opens hp
    rw [hcontext]
    exact ⟨hopens, htable, rfl, rfl, rfl⟩
  · intro source hsource e he
    cases ofTable_eq_error.mp he with
    | unfit hunfit =>
        intro hinternal
        cases hunfit <;> cases hinternal
    | group _ hfirst =>
        obtain ⟨before, group, after, hgroups, -, hproblem⟩ := hfirst
        have hmem : group ∈ table.groups := by
          rw [hgroups]
          exact List.mem_append_right before List.mem_cons_self
        exact not_internal_of_problem (isNamed_of_compile hsource group hmem) hproblem

end Pipeline

end RowRecipe
