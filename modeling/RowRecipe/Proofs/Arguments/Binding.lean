import Mathlib.Data.List.Basic
import RowRecipe.Arguments.Access
import RowRecipe.Proofs.OrderedMap

/-!
What binding accepts, what it gives and what it refuses. Whether tokens fit their parameters is a
question for each place by itself; the first place at which they do not decides the error. What was
bound under a name is the token at the last of the places that have this name.
-/

namespace RowRecipe

/-- The tokens behind the name of the directive, if the group starts with one. -/
def TokenGroup.arguments? (group : TokenGroup) : Option (List Token) :=
  match group.tokens with
  | .directiveName _ :: tokens => some tokens
  | _ => none

namespace Arguments

/-- What is wrong with the token that stands in the place of a parameter, or with there being none. -/
inductive Clash (usage : Usage) (p : Usage.Parameter) : Option Token → BindError → Prop
  | mismatch {token : Token} (hkind : token.kind ≠ p.kind) :
      Clash usage p (some token) (.typeMismatch usage.directive p.name p.kind token.kind)
  | missing (hrequired : p.optional = false) :
      Clash usage p none (.missingRequired usage.directive p.name p.kind usage.line)

/-- Something is wrong at a place. -/
def ClashAt (usage : Usage) (parameters : List Usage.Parameter) (tokens : List Token) (i : Nat)
    (e : BindError) : Prop :=
  ∃ p, parameters[i]? = some p ∧ Clash usage p tokens[i]? e

/-- Something is wrong at a place, and nothing at the places before it. -/
def FirstClash (usage : Usage) (parameters : List Usage.Parameter) (tokens : List Token)
    (e : BindError) : Prop :=
  ∃ i, ClashAt usage parameters tokens i e ∧ ∀ j < i, ∀ e', ¬ClashAt usage parameters tokens j e'

/-- The parameters at whose places a token stands have its kind, the others may be left out, and no
token is left over. -/
structure Fits (parameters : List Usage.Parameter) (tokens : List Token) : Prop where
  length_le : tokens.length ≤ parameters.length
  kind : ∀ (i : Nat) (p : Usage.Parameter) (token : Token), parameters[i]? = some p →
    tokens[i]? = some token → token.kind = p.kind
  optional : ∀ (i : Nat) (p : Usage.Parameter), parameters[i]? = some p → tokens.length ≤ i →
    p.optional = true

section Places

variable {usage : Usage} {p : Usage.Parameter} {parameters : List Usage.Parameter}
  {token : Token} {tokens : List Token} {i : Nat} {e : BindError}

theorem clashAt_zero : ClashAt usage (p :: parameters) tokens 0 e ↔ Clash usage p tokens.head? e := by
  rw [ClashAt, List.getElem?_cons_zero, ← List.head?_eq_getElem?]
  constructor
  · rintro ⟨q, hq, hclash⟩
    rwa [Option.some.inj hq]
  · exact fun hclash => ⟨p, rfl, hclash⟩

theorem clashAt_succ :
    ClashAt usage (p :: parameters) tokens (i + 1) e ↔ ClashAt usage parameters tokens.tail i e := by
  rw [ClashAt, ClashAt, List.getElem?_cons_succ, List.getElem?_tail]

/-- The first place decides if something is wrong there. -/
theorem firstClash_of_clash (h : Clash usage p tokens.head? e) :
    FirstClash usage (p :: parameters) tokens e :=
  ⟨0, clashAt_zero.mpr h, fun _ hj => absurd hj (Nat.not_lt_zero _)⟩

/-- Otherwise the places behind it decide. -/
theorem firstClash_cons (hfirst : ∀ e', ¬Clash usage p tokens.head? e')
    (h : FirstClash usage parameters tokens.tail e) : FirstClash usage (p :: parameters) tokens e := by
  obtain ⟨i, hclash, hbefore⟩ := h
  refine ⟨i + 1, clashAt_succ.mpr hclash, fun j hj e' hclash' => ?_⟩
  cases j with
  | zero => exact hfirst e' (clashAt_zero.mp hclash')
  | succ j => exact hbefore j (Nat.lt_of_succ_lt_succ hj) e' (clashAt_succ.mp hclash')

theorem not_clashAt_cons (hfirst : ∀ e', ¬Clash usage p tokens.head? e')
    (h : ∀ i e', ¬ClashAt usage parameters tokens.tail i e') :
    ∀ i e', ¬ClashAt usage (p :: parameters) tokens i e' := by
  intro i e' hclash
  cases i with
  | zero => exact hfirst e' (clashAt_zero.mp hclash)
  | succ i => exact h i e' (clashAt_succ.mp hclash)

/-- Tokens fit when nothing is wrong at any place and none of them is left over. -/
theorem fits_iff (usage : Usage) : Fits parameters tokens ↔
    (∀ i e, ¬ClashAt usage parameters tokens i e) ∧ tokens.length ≤ parameters.length := by
  constructor
  · intro h
    refine ⟨?_, h.length_le⟩
    rintro i e ⟨p, hp, hclash⟩
    generalize htoken : tokens[i]? = found at hclash
    cases hclash with
    | mismatch hkind => exact hkind (h.kind i p _ hp htoken)
    | missing hrequired =>
        rw [h.optional i p hp (List.getElem?_eq_none_iff.mp htoken)] at hrequired
        cases hrequired
  · rintro ⟨hnone, hlength⟩
    refine ⟨hlength, fun i p token hp htoken => ?_, fun i p hp hi => ?_⟩
    · by_contra hkind
      refine hnone i (.typeMismatch usage.directive p.name p.kind token.kind) ⟨p, hp, ?_⟩
      rw [htoken]
      exact .mismatch hkind
    · by_contra hoptional
      refine hnone i (.missingRequired usage.directive p.name p.kind usage.line) ⟨p, hp, ?_⟩
      rw [List.getElem?_eq_none_iff.mpr hi]
      exact .missing (Bool.eq_false_iff.mpr hoptional)

end Places

/-- The tokens under the names of the parameters in whose places they stand. -/
def given (parameters : List Usage.Parameter) (tokens : List Token) : List (String × Token) :=
  (parameters.map Usage.Parameter.name).zip tokens

/-- Matching finds the first place at which something is wrong. If there is none, it sets the tokens
under their names in turn and gives back those that are left over. -/
theorem match?_spec (usage : Usage) (parameters : List Usage.Parameter) (tokens : List Token)
    (bound : OrderedMap String Token) :
    match match? usage parameters tokens bound with
    | .error e => FirstClash usage parameters tokens e
    | .ok (found, extra) => (∀ i e, ¬ClashAt usage parameters tokens i e) ∧
        found = (given parameters tokens).foldl (fun m p => m.insert p.1 p.2) bound ∧
        extra = tokens.drop parameters.length := by
  fun_induction match? usage parameters tokens bound with
  | case1 tokens bound =>
      refine ⟨?_, rfl, rfl⟩
      rintro i e ⟨p, hp, -⟩
      cases hp
  | case2 p parameters bound hoptional ih =>
      have hfirst : ∀ e', ¬Clash usage p ([] : List Token).head? e' := by
        intro e' hclash
        cases hclash with
        | missing hrequired =>
            rw [hoptional] at hrequired
            cases hrequired
      cases hmatch : match? usage parameters [] bound with
      | error e =>
          rw [hmatch] at ih
          exact firstClash_cons hfirst ih
      | ok result =>
          rw [hmatch] at ih
          obtain ⟨hnone, hfound, hextra⟩ := ih
          refine ⟨not_clashAt_cons hfirst hnone, ?_, ?_⟩
          · rw [hfound, given, given, List.zip_nil_right, List.zip_nil_right]
          · rw [hextra, List.drop_nil, List.drop_nil]
  | case3 p parameters bound hoptional =>
      exact firstClash_of_clash (.missing (Bool.eq_false_iff.mpr hoptional))
  | case4 p parameters token tokens bound hkind ih =>
      have hfirst : ∀ e', ¬Clash usage p (token :: tokens).head? e' := by
        intro e' hclash
        cases hclash with
        | mismatch hne => exact hne hkind
      cases hmatch : match? usage parameters tokens (bound.insert p.name token) with
      | error e =>
          rw [hmatch] at ih
          exact firstClash_cons hfirst ih
      | ok result =>
          rw [hmatch] at ih
          obtain ⟨hnone, hfound, hextra⟩ := ih
          exact ⟨not_clashAt_cons hfirst hnone, hfound, hextra⟩
  | case5 p parameters token tokens bound hkind => exact firstClash_of_clash (.mismatch hkind)

/-- The token stands at the last of the places under a name at which tokens stand. -/
def Supplies (parameters : List Usage.Parameter) (tokens : List Token) (name : String)
    (token : Token) : Prop :=
  ∃ (i : Nat) (p : Usage.Parameter), parameters[i]? = some p ∧ p.name = name ∧
    tokens[i]? = some token ∧
    ∀ (j : Nat) (q : Usage.Parameter), i < j → j < tokens.length → parameters[j]? = some q →
      q.name ≠ name

section Given

variable {parameters : List Usage.Parameter} {tokens : List Token} {name : String} {token : Token}

theorem getElem?_given {i : Nat} : (given parameters tokens)[i]? = some (name, token) ↔
    ∃ p, parameters[i]? = some p ∧ p.name = name ∧ tokens[i]? = some token := by
  rw [given, List.getElem?_zip_eq_some, List.getElem?_map, Option.map_eq_some_iff]
  constructor
  · rintro ⟨⟨p, hp, hname⟩, htoken⟩
    exact ⟨p, hp, hname, htoken⟩
  · rintro ⟨p, hp, hname, htoken⟩
    exact ⟨⟨p, hp, hname⟩, htoken⟩

theorem mem_keys_given : name ∈ (given parameters tokens).map Prod.fst ↔
    ∃ (i : Nat) (p : Usage.Parameter), parameters[i]? = some p ∧ i < tokens.length ∧ p.name = name := by
  rw [List.mem_map]
  constructor
  · rintro ⟨⟨key, token⟩, hmem, rfl⟩
    obtain ⟨i, hi⟩ := List.mem_iff_getElem?.mp hmem
    obtain ⟨p, hp, hname, htoken⟩ := getElem?_given.mp hi
    exact ⟨i, p, hp, (List.getElem?_eq_some_iff.mp htoken).1, hname⟩
  · rintro ⟨i, p, hp, hi, hname⟩
    have hget := getElem?_given.mpr ⟨p, hp, hname, List.getElem?_eq_getElem hi⟩
    exact ⟨_, List.mem_of_getElem? hget, rfl⟩

/-- The last entry under a name is the token at the last place under that name. -/
theorem supplies_iff : Supplies parameters tokens name token ↔
    ∃ before after, given parameters tokens = before ++ (name, token) :: after ∧
      name ∉ after.map Prod.fst := by
  constructor
  · rintro ⟨i, p, hp, hname, htoken, hlast⟩
    obtain ⟨hi, hget⟩ := List.getElem?_eq_some_iff.mp (getElem?_given.mpr ⟨p, hp, hname, htoken⟩)
    refine ⟨(given parameters tokens).take i, (given parameters tokens).drop (i + 1), ?_, ?_⟩
    · rw [← hget, ← List.drop_eq_getElem_cons hi, List.take_append_drop]
    · intro hmem
      obtain ⟨⟨key, other⟩, hother, rfl⟩ := List.mem_map.mp hmem
      obtain ⟨j, hj⟩ := List.mem_iff_getElem?.mp hother
      rw [List.getElem?_drop] at hj
      obtain ⟨q, hq, hqname, hqtoken⟩ := getElem?_given.mp hj
      exact hlast _ q (by omega) (List.getElem?_eq_some_iff.mp hqtoken).1 hq hqname
  · rintro ⟨before, after, hgiven, hafter⟩
    have hget : (given parameters tokens)[before.length]? = some (name, token) := by
      rw [hgiven, List.getElem?_append_right (Nat.le_refl _), Nat.sub_self,
        List.getElem?_cons_zero]
    obtain ⟨p, hp, hname, htoken⟩ := getElem?_given.mp hget
    refine ⟨before.length, p, hp, hname, htoken, fun j q hj hlt hq hqname => hafter ?_⟩
    have hother := getElem?_given.mpr ⟨q, hq, hqname, List.getElem?_eq_getElem hlt⟩
    obtain ⟨k, rfl⟩ := Nat.exists_eq_add_of_lt hj
    have hk : after[k]? = some (name, tokens[before.length + k + 1]) := by
      rw [hgiven, List.getElem?_append_right (by omega)] at hother
      rwa [show before.length + k + 1 - before.length = k + 1 by omega,
        List.getElem?_cons_succ] at hother
    exact List.mem_map.mpr ⟨_, List.mem_of_getElem? hk, rfl⟩

end Given

/-- Reading an argument by kind gives what its token holds if this is of the kind, and otherwise the
error that tells both kinds. An argument that was not given cannot be read. -/
def ReadsKind {α : Type} (args : Arguments) (name : String) (kind : TokenKind) (wrap : α → Token)
    (result : Except BindError α) : Prop :=
  match args.value name with
  | .error e => result = .error e
  | .ok token =>
      (token.kind = kind → ∃ a, token = wrap a ∧ result = .ok a) ∧
      (token.kind ≠ kind → result = .error (.typeMismatch args.directive name kind token.kind))

theorem typed_readsKind {α : Type} (args : Arguments) (name : String) {kind : TokenKind}
    {wrap : α → Token} {pick : Token → Option α} (hpick : ∀ token,
      (token.kind = kind ∧ ∃ a, token = wrap a ∧ pick token = some a) ∨
      (token.kind ≠ kind ∧ pick token = none)) :
    ReadsKind args name kind wrap (args.typed name kind pick) := by
  unfold ReadsKind typed
  cases args.value name with
  | error e => rfl
  | ok token =>
      rcases hpick token with ⟨hkind, a, htoken, hsome⟩ | ⟨hkind, hnone⟩
      · dsimp only
        rw [hsome]
        exact ⟨fun _ => ⟨a, htoken, rfl⟩, fun hne => absurd hkind hne⟩
      · dsimp only
        rw [hnone]
        exact ⟨fun heq => absurd heq hkind, fun _ => rfl⟩

/-- All readers read the tokens of their own kind. -/
structure Readable (args : Arguments) (name : String) : Prop where
  column : ReadsKind args name .columnName .columnName (args.column name)
  columns : ReadsKind args name .columnNameList .columnNameList (args.columns name)
  text : ReadsKind args name .text .text (args.text name)
  texts : ReadsKind args name .textList .textList (args.texts name)
  numeric : ReadsKind args name .numeric .numeric (args.numeric name)
  numerics : ReadsKind args name .numericList .numericList (args.numerics name)
  boolean : ReadsKind args name .bool .bool (args.boolean name)
  booleans : ReadsKind args name .boolList .boolList (args.booleans name)
  identifier : ReadsKind args name .identifier .identifier (args.identifier name)
  expression : ReadsKind args name .expression .expression (args.expression name)
  properties : ReadsKind args name .properties .properties (args.properties name)
  ranges : ReadsKind args name .ranges .ranges (args.ranges name)
  byteSize : ReadsKind args name .byteSize .byteSize (args.byteSize name)
  timeDuration : ReadsKind args name .timeDuration .timeDuration (args.timeDuration name)

theorem readable (args : Arguments) (name : String) : args.Readable name := by
  constructor <;> refine typed_readsKind args name fun token => ?_ <;> cases token <;>
    simp [Token.kind]

/-- The arguments are what the tokens give to the parameters of the usage. -/
structure Bound (usage : Usage) (group : TokenGroup) (tokens : List Token) (args : Arguments) :
    Prop where
  directive : args.directive = usage.directive
  span : args.span = group.span
  contains : ∀ name, args.contains name = true ↔
    ∃ (i : Nat) (p : Usage.Parameter), usage.parameters[i]? = some p ∧ i < tokens.length ∧
      p.name = name
  value : ∀ name token, args.value name = .ok token ↔ Supplies usage.parameters tokens name token
  absent : ∀ name, args.contains name = false →
    args.value name = .error (.notSupplied usage.directive name)
  readable : ∀ name, args.Readable name

section Values

variable {args : Arguments} {name : String}

theorem value_eq_ok {token : Token} :
    args.value name = .ok token ↔ args.values.get? name = some token := by
  rw [value]
  cases args.values.get? name with
  | none => exact ⟨(nomatch ·), (nomatch ·)⟩
  | some found =>
      exact ⟨fun h => congrArg some (Except.ok.inj h), fun h => congrArg Except.ok (Option.some.inj h)⟩

theorem value_of_not_contains (h : args.contains name = false) :
    args.value name = .error (.notSupplied args.directive name) := by
  have hnone : args.values.get? name = none := by
    rwa [contains, OrderedMap.contains, Option.isSome_eq_false_iff, Option.isNone_iff_eq_none] at h
  rw [value, hnone]

end Values

theorem bound_of_given (usage : Usage) (group : TokenGroup) (tokens : List Token) :
    Bound usage group tokens ⟨usage.directive,
      (given usage.parameters tokens).foldl (fun m p => m.insert p.1 p.2) .empty, group.span⟩ where
  directive := rfl
  span := rfl
  contains name := by
    rw [contains, OrderedMap.contains_foldl_insert, mem_keys_given]
    refine or_iff_left ?_
    intro hempty
    cases hempty
  value name token := by
    rw [value_eq_ok, supplies_iff, OrderedMap.get?_foldl_insert]
    refine or_iff_left ?_
    rintro ⟨-, hempty⟩
    cases hempty
  absent name h := value_of_not_contains h
  readable := Arguments.readable _

/-- Why the tokens of a group cannot be bound: there is no name of a directive in front of them, or
something is wrong at a place and this is the first such place, or all places are fine and there are
more tokens than places. -/
inductive Refused (usage : Usage) (group : TokenGroup) : BindError → Prop
  | nameless (h : group.arguments? = none) : Refused usage group (.missingDirectiveName group.span)
  | place {tokens : List Token} {e : BindError} (h : group.arguments? = some tokens)
      (hfirst : FirstClash usage usage.parameters tokens e) : Refused usage group e
  | extra {tokens : List Token} {token : Token} (h : group.arguments? = some tokens)
      (hnone : ∀ i e, ¬ClashAt usage usage.parameters tokens i e)
      (htoken : tokens[usage.parameters.length]? = some token) :
      Refused usage group (.unexpectedArgument usage.directive (usage.parameters.length + 1)
        token.kind usage.line)

section Outcome

variable {usage : Usage} {group : TokenGroup} {tokens : List Token}

theorem bind_of_nameless (h : group.arguments? = none) :
    bind usage group = .error (.missingDirectiveName group.span) := by
  rw [TokenGroup.arguments?] at h
  split at h
  · cases h
  · rename_i hname
    rw [bind]
    split
    · rename_i htokens
      exact (hname _ _ htokens).elim
    · rfl

theorem bind_of_named (h : group.arguments? = some tokens) :
    bind usage group = match match? usage usage.parameters tokens .empty with
      | .error e => .error e
      | .ok (bound, []) => .ok ⟨usage.directive, bound, group.span⟩
      | .ok (_, extra :: _) =>
          .error (.unexpectedArgument usage.directive (usage.parameters.length + 1) extra.kind
            usage.line) := by
  obtain ⟨found, span⟩ := group
  rw [TokenGroup.arguments?] at h
  split at h
  · rename_i htokens
    obtain rfl := Option.some.inj h
    obtain rfl : found = _ := htokens
    rfl
  · cases h

/-- Binding gives what the tokens give to the parameters, or is refused. -/
theorem bind_spec (usage : Usage) (group : TokenGroup) :
    (∃ e, bind usage group = .error e ∧ Refused usage group e) ∨
    ∃ args tokens, bind usage group = .ok args ∧ group.arguments? = some tokens ∧
      Fits usage.parameters tokens ∧ Bound usage group tokens args := by
  cases hargs : group.arguments? with
  | none => exact .inl ⟨_, bind_of_nameless hargs, .nameless hargs⟩
  | some tokens =>
      rw [bind_of_named hargs]
      have hspec := match?_spec usage usage.parameters tokens .empty
      cases hmatch : match? usage usage.parameters tokens .empty with
      | error e =>
          rw [hmatch] at hspec
          exact .inl ⟨e, rfl, .place hargs hspec⟩
      | ok result =>
          obtain ⟨found, extra⟩ := result
          rw [hmatch] at hspec
          obtain ⟨hnone, rfl, rfl⟩ := hspec
          cases hextra : tokens.drop usage.parameters.length with
          | nil =>
              have hfits := (fits_iff usage).mpr ⟨hnone, List.drop_eq_nil_iff.mp hextra⟩
              exact .inr ⟨_, tokens, rfl, rfl, hfits, bound_of_given usage group tokens⟩
          | cons token more =>
              have htoken : tokens[usage.parameters.length]? = some token := by
                rw [← List.head?_drop, hextra, List.head?_cons]
              exact .inl ⟨_, rfl, .extra hargs hnone htoken⟩

theorem Clash.unique {p : Usage.Parameter} {token : Option Token} {e e' : BindError}
    (h : Clash usage p token e) (h' : Clash usage p token e') : e = e' := by
  cases h <;> cases h' <;> rfl

theorem FirstClash.unique {parameters : List Usage.Parameter} {e e' : BindError}
    (h : FirstClash usage parameters tokens e) (h' : FirstClash usage parameters tokens e') :
    e = e' := by
  obtain ⟨i, hi, hbefore⟩ := h
  obtain ⟨j, hj, hbefore'⟩ := h'
  obtain rfl : i = j := Nat.le_antisymm (Nat.le_of_not_lt fun hlt => hbefore j hlt e' hj)
    (Nat.le_of_not_lt fun hlt => hbefore' i hlt e hi)
  obtain ⟨p, hp, hclash⟩ := hi
  obtain ⟨q, hq, hclash'⟩ := hj
  obtain rfl := Option.some.inj (hp.symm.trans hq)
  exact hclash.unique hclash'

/-- A group is refused for one reason only. -/
theorem Refused.unique {e e' : BindError} (h : Refused usage group e)
    (h' : Refused usage group e') : e = e' := by
  cases h with
  | nameless hargs =>
      cases h' with
      | nameless => rfl
      | place hargs' => cases hargs.symm.trans hargs'
      | extra hargs' => cases hargs.symm.trans hargs'
  | place hargs hfirst =>
      cases h' with
      | nameless hargs' => cases hargs.symm.trans hargs'
      | place hargs' hfirst' =>
          obtain rfl := Option.some.inj (hargs.symm.trans hargs')
          exact hfirst.unique hfirst'
      | extra hargs' hnone =>
          obtain rfl := Option.some.inj (hargs.symm.trans hargs')
          obtain ⟨i, hclash, -⟩ := hfirst
          exact (hnone i _ hclash).elim
  | extra hargs hnone htoken =>
      cases h' with
      | nameless hargs' => cases hargs.symm.trans hargs'
      | place hargs' hfirst =>
          obtain rfl := Option.some.inj (hargs.symm.trans hargs')
          obtain ⟨i, hclash, -⟩ := hfirst
          exact (hnone i _ hclash).elim
      | extra hargs' _ htoken' =>
          obtain rfl := Option.some.inj (hargs.symm.trans hargs')
          obtain rfl := Option.some.inj (htoken.symm.trans htoken')
          rfl

/-- Tokens that fit are not refused. -/
theorem Refused.not_fits {e : BindError} (h : Refused usage group e)
    (hargs : group.arguments? = some tokens) : ¬Fits usage.parameters tokens := by
  intro hfits
  obtain ⟨hnone, hlength⟩ := (fits_iff usage).mp hfits
  cases h with
  | nameless hargs' => cases hargs.symm.trans hargs'
  | place hargs' hfirst =>
      obtain rfl := Option.some.inj (hargs.symm.trans hargs')
      obtain ⟨i, hclash, -⟩ := hfirst
      exact hnone i _ hclash
  | extra hargs' _ htoken =>
      obtain rfl := Option.some.inj (hargs.symm.trans hargs')
      exact absurd (List.getElem?_eq_some_iff.mp htoken).1 (Nat.not_lt.mpr hlength)

end Outcome

/-- Binding, exactly. It succeeds when the group starts with the name of a directive and the tokens
behind it fit the parameters, place by place. What it gives then are the tokens under the names of
their places, a later place before an earlier one of the same name, for every reader to read by kind.
And it fails with the error of the first place at which something is wrong, or, if all places are fine,
with the first token past the last place. -/
theorem bind_exact (usage : Usage) (group : TokenGroup) :
    ((∃ args, bind usage group = .ok args) ↔
      ∃ tokens, group.arguments? = some tokens ∧ Fits usage.parameters tokens) ∧
    (∀ args, bind usage group = .ok args →
      ∃ tokens, group.arguments? = some tokens ∧ Bound usage group tokens args) ∧
    ∀ e, bind usage group = .error e ↔ Refused usage group e := by
  rcases bind_spec usage group with ⟨e, hbind, hrefused⟩ | ⟨args, tokens, hbind, hargs, hfits, hbound⟩
  · rw [hbind]
    refine ⟨⟨?_, ?_⟩, ?_, fun e' => ⟨?_, ?_⟩⟩
    · rintro ⟨args, h⟩
      cases h
    · rintro ⟨tokens, hargs, hfits⟩
      exact (hrefused.not_fits hargs hfits).elim
    · intro args h
      cases h
    · intro h
      rwa [← Except.error.inj h]
    · intro hrefused'
      rw [hrefused.unique hrefused']
  · rw [hbind]
    refine ⟨⟨?_, ?_⟩, ?_, fun e' => ⟨?_, ?_⟩⟩
    · exact fun _ => ⟨tokens, hargs, hfits⟩
    · exact fun _ => ⟨args, rfl⟩
    · intro args' h
      rw [← Except.ok.inj h]
      exact ⟨tokens, hargs, hbound⟩
    · intro h
      cases h
    · intro hrefused
      exact (hrefused.not_fits hargs hfits).elim

end Arguments

end RowRecipe
