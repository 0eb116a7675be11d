import RowRecipe.AggregateStats.Basic
import RowRecipe.Proofs.Arguments.Binding

/-!
Preparing the directive that adds up. Arguments that were bound to a usage can be read by the kinds of
its parameters: a parameter that must be given is there, and what is there has the kind of its
parameter. So the directive finds all that it asks for, and only refuses names that are no units.
-/

namespace RowRecipe

namespace Arguments

section Bound

variable {usage : Usage} {group : TokenGroup} {tokens : List Token} {args : Arguments} {name : String}

/-- A parameter that must be given is given. -/
theorem Bound.contains_of_required (h : Bound usage group tokens args)
    (hfits : Fits usage.parameters tokens) {i : Nat} {p : Usage.Parameter}
    (hp : usage.parameters[i]? = some p) (hrequired : p.optional = false) :
    args.contains p.name = true := by
  refine (h.contains p.name).mpr ⟨i, p, hp, ?_, rfl⟩
  by_contra hi
  have hoptional := hfits.optional i p hp (Nat.le_of_not_lt hi)
  rw [hrequired] at hoptional
  cases hoptional

/-- The token of an argument has the kind of its parameter. -/
theorem Bound.exists_value (h : Bound usage group tokens args) (hfits : Fits usage.parameters tokens)
    (hname : args.contains name = true) :
    ∃ token p, args.value name = .ok token ∧ p ∈ usage.parameters ∧ p.name = name ∧
      token.kind = p.kind := by
  obtain ⟨token, hget⟩ := Option.isSome_iff_exists.mp hname
  have hvalue := value_eq_ok.mpr hget
  obtain ⟨i, p, hp, hpname, htoken, -⟩ := (h.value name token).mp hvalue
  exact ⟨token, p, hvalue, List.mem_of_getElem? hp, hpname, hfits.kind i p token hp htoken⟩

/-- An argument is read by the reader of the kind that all parameters of its name have. -/
theorem Bound.exists_read (h : Bound usage group tokens args) (hfits : Fits usage.parameters tokens)
    {α : Type} {kind : TokenKind} {wrap : α → Token} {result : Except BindError α}
    (hreads : ReadsKind args name kind wrap result)
    (hkind : ∀ p ∈ usage.parameters, p.name = name → p.kind = kind)
    (hname : args.contains name = true) : ∃ a, result = .ok a := by
  obtain ⟨token, p, hvalue, hp, hpname, htoken⟩ := h.exists_value hfits hname
  unfold ReadsKind at hreads
  rw [hvalue] at hreads
  obtain ⟨a, -, hresult⟩ := hreads.1 (htoken.trans (hkind p hp hpname))
  exact ⟨a, hresult⟩

end Bound

end Arguments

namespace AggregateStats

open Arguments

variable {group : TokenGroup} {tokens : List Token} {args : Arguments}

/-- The names of the four columns are given and can be read. -/
theorem exists_withColumns (h : Bound usage group tokens args) (hfits : Fits usage.parameters tokens)
    (s : AggregateStats) : ∃ next, s.withColumns args = .ok next := by
  have hcolumn : ∀ (i : Nat) (name : String), usage.parameters[i]? = some ⟨name, .columnName, false⟩ →
      (∀ q ∈ usage.parameters, q.name = name → q.kind = .columnName) →
      ∃ column, args.column name = .ok column :=
    fun i name hp hkind => h.exists_read hfits (h.readable name).column hkind
      (h.contains_of_required hfits hp rfl)
  obtain ⟨byteColumn, hbyte⟩ := hcolumn 0 "byte_column" rfl (by decide)
  obtain ⟨timeColumn, htime⟩ := hcolumn 1 "time_column" rfl (by decide)
  obtain ⟨byteTotalColumn, hbyteTotal⟩ := hcolumn 2 "byte_total_column" rfl (by decide)
  obtain ⟨timeTotalColumn, htimeTotal⟩ := hcolumn 3 "time_total_column" rfl (by decide)
  refine ⟨{ s with byteColumn, timeColumn, byteTotalColumn, timeTotalColumn }, ?_⟩
  rw [withColumns, hbyte, htime, hbyteTotal, htimeTotal]
  rfl

/-- The unit of an argument that can be read, if it is there, is the one it names or is refused. -/
theorem unitArgument_ne_bind {U : Type} {name : String} {standing : U} {read : String → Option U}
    {refusal : String → String} (htext : args.contains name = true → ∃ text, args.text name = .ok text)
    (e : BindError) : unitArgument args name standing read refusal ≠ .error (.bind e) := by
  unfold unitArgument
  split
  · rename_i hname
    obtain ⟨text, htext⟩ := htext hname
    rw [htext]
    dsimp only
    split
    · exact fun h => nomatch h
    · exact fun h => nomatch h
  · exact fun h => nomatch h

/-- Bound arguments are never found missing or of another kind when the directive reads them. -/
theorem prepare_ne_bind (h : Bound usage group tokens args) (hfits : Fits usage.parameters tokens)
    (s : AggregateStats) (e : BindError) : (prepare args s).outcome ≠ .error (.bind e) := by
  obtain ⟨next, hcolumns⟩ := exists_withColumns h hfits s
  have hunit : ∀ name, (∀ p ∈ usage.parameters, p.name = name → p.kind = .text) →
      args.contains name = true → ∃ text, args.text name = .ok text :=
    fun name hkind => h.exists_read hfits (h.readable name).text hkind
  unfold prepare
  rw [hcolumns]
  dsimp only
  split
  · rename_i hbyte
    intro hbind
    rw [Except.error.inj hbind] at hbyte
    exact unitArgument_ne_bind (hunit _ (by decide)) e hbyte
  · split
    · rename_i htime
      intro hbind
      rw [Except.error.inj hbind] at htime
      exact unitArgument_ne_bind (hunit _ (by decide)) e htime
    · exact fun hbind => nomatch hbind

end AggregateStats

end RowRecipe
