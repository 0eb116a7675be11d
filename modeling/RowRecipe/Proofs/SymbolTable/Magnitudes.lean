import RowRecipe.Proofs.Binary64.Range
import RowRecipe.Proofs.SymbolTable.Rebuilding
import RowRecipe.Proofs.Token.Contents
import RowRecipe.Proofs.Written.Compiling

/-!
The magnitudes in a compiled recipe. The numbers in it are finite, wherever they stand. Unit literals
are read by themselves and nothing refuses one for its size: its magnitude is finite exactly if its
decimal is in the range of the format, and infinite otherwise.
-/

namespace RowRecipe

namespace Numeral

/-- The decimal that the text of a numeral writes behind its sign. -/
def decimal? (n : Numeral) : Option Decimal :=
  Binary64.unsignedDecimal? (Binary64.takeSign n.text.toList).2

/-- Since its value is finite, the text of a numeral writes a decimal, and one in range. -/
theorem exists_decimal (n : Numeral) : ∃ d ∈ n.decimal?, Binary64.InRange d := by
  have hreads := n.reads
  have hfinite := n.finite
  rw [Binary64.parse?] at hreads
  dsimp only at hreads
  split at hreads
  · rw [← Option.some.inj hreads] at hfinite
    cases hfinite
  · split at hreads
    · rw [← Option.some.inj hreads] at hfinite
      cases hfinite
    · obtain ⟨d, hd, hvalue⟩ := Option.map_eq_some_iff.mp hreads
      rw [← hvalue, Binary64.isFinite_ofDecimal] at hfinite
      exact ⟨d, hd, hfinite⟩

end Numeral

namespace Token

/-- The magnitudes of a token that are not in tokens inside of it. -/
def ownMagnitudes : Token → List Binary64
  | .byteSize size => [size.value]
  | .timeDuration duration => [duration.value]
  | token => token.ownNumerals.map Numeral.value

/-- The magnitudes in a token: the values of its numbers and quantities. -/
def magnitudes (token : Token) : List Binary64 := token.leaves.flatMap ownMagnitudes

theorem mem_magnitudes_byteSize (size : ByteSize) : size.value ∈ (byteSize size).magnitudes :=
  List.mem_singleton_self _

/-- The decimal of the unit literal that the token is, if it is one. -/
def unitDecimal? : Token → Option Decimal
  | .byteSize size => size.decimal?
  | .timeDuration duration => duration.decimal?
  | _ => none

/-- The decimals of the unit literals in a token. -/
def unitDecimals (token : Token) : List Decimal := token.leaves.filterMap unitDecimal?

/-- What a token consists of is as sound as the token. -/
theorem Sound.leaf {token leaf : Token} (h : token.Sound) (hleaf : leaf ∈ token.leaves) :
    leaf.Sound := by
  induction h with
  | plain hplain =>
      rw [leaves_of_kind (by rintro hkind; rw [hkind] at hplain; cases hplain)] at hleaf
      rw [List.mem_singleton.mp hleaf]
      exact .plain hplain
  | byteSize h =>
      rw [List.mem_singleton.mp hleaf]
      exact .byteSize h
  | timeDuration h =>
      rw [List.mem_singleton.mp hleaf]
      exact .timeDuration h
  | properties _ _ ih =>
      obtain ⟨e, he, hleaf⟩ := mem_leaves_properties.mp hleaf
      exact ih e he hleaf

/-- The magnitude of a quantity that was read is that of its decimal. -/
theorem magnitude_of_parse {U : Type} [UnitFamily U] {text : String} {q : Quantity U}
    (h : Quantity.parse text = .ok q) :
    q.value ≠ .nan ∧ (q.value.isFinite = true ↔ ∀ d ∈ q.decimal?, Binary64.InRange d) := by
  obtain ⟨-, d, hd, hvalue⟩ := Quantity.parse_eq_ok h
  rw [hvalue, hd]
  refine ⟨Binary64.ofDecimal_ne_nan _ _, (Binary64.isFinite_ofDecimal _ _).trans ?_⟩
  simp only [Option.mem_some_iff, forall_eq']

theorem Sound.ownMagnitudes {token : Token} (h : token.Sound) :
    (∀ x ∈ token.ownMagnitudes, x ≠ .nan) ∧ ((∀ x ∈ token.ownMagnitudes, x.isFinite = true) ↔
      ∀ d ∈ token.unitDecimal?, Binary64.InRange d) := by
  have hnumerals : ∀ ns : List Numeral, ∀ x ∈ ns.map Numeral.value, x ≠ .nan ∧ x.isFinite = true := by
    intro ns x hx
    obtain ⟨n, -, rfl⟩ := List.mem_map.mp hx
    exact ⟨n.value_ne_nan, n.finite⟩
  have hplain : token.ownMagnitudes = token.ownNumerals.map Numeral.value →
      token.unitDecimal? = none → (∀ x ∈ token.ownMagnitudes, x ≠ .nan) ∧
        ((∀ x ∈ token.ownMagnitudes, x.isFinite = true) ↔
          ∀ d ∈ token.unitDecimal?, Binary64.InRange d) := by
    intro hmagnitudes hdecimal
    rw [hmagnitudes, hdecimal]
    exact ⟨fun x hx => (hnumerals _ x hx).1,
      iff_of_true (fun x hx => (hnumerals _ x hx).2) (by simp)⟩
  cases h with
  | plain h =>
      cases token with
      | byteSize | timeDuration => cases h
      | _ => exact hplain rfl rfl
  | properties => exact hplain rfl rfl
  | byteSize h =>
      obtain ⟨hnan, hfinite⟩ := magnitude_of_parse h
      exact ⟨List.forall_mem_singleton.mpr hnan, List.forall_mem_singleton.trans hfinite⟩
  | timeDuration h =>
      obtain ⟨hnan, hfinite⟩ := magnitude_of_parse h
      exact ⟨List.forall_mem_singleton.mpr hnan, List.forall_mem_singleton.trans hfinite⟩

theorem Sound.magnitudes {token : Token} (h : token.Sound) :
    (∀ x ∈ token.magnitudes, x ≠ .nan) ∧ ((∀ x ∈ token.magnitudes, x.isFinite = true) ↔
      ∀ d ∈ token.unitDecimals, Binary64.InRange d) := by
  simp only [Token.magnitudes, unitDecimals, List.mem_flatMap, List.mem_filterMap]
  constructor
  · rintro x ⟨leaf, hleaf, hx⟩
    exact (h.leaf hleaf).ownMagnitudes.1 x hx
  · constructor
    · rintro hfinite d ⟨leaf, hleaf, hd⟩
      exact (h.leaf hleaf).ownMagnitudes.2.mp (fun x hx => hfinite x ⟨leaf, hleaf, hx⟩) d hd
    · rintro hrange x ⟨leaf, hleaf, hx⟩
      exact (h.leaf hleaf).ownMagnitudes.2.mpr (fun d hd => hrange d ⟨leaf, hleaf, hd⟩) x hx

end Token

namespace SymbolTable

/-- A directive by itself compiles. -/
theorem compile_directive (d : Written.Directive) :
    ∃ table, compile (String.ofList d.text) = .ok table ∧ ∃ group ∈ table.groups,
      group.tokens = d.tokens := by
  have hsource : d.text = [] ++ ((Written.Item.directive d).text ++ []) := (List.append_nil _).symm
  obtain ⟨run, node, hlexes, ⟨first, hfirst, -⟩, hitem, hrule, htokens⟩ :=
    Written.item_reads (.directive d) hsource Lexeme.apart_nil
  have hscan : Lexeme.scan d.text 0 = .ok run := hlexes.scan_eq_ok
  have hparse : Node.parse (String.ofList d.text) =
      .ok (Node.cover d.text .recipe 0 (Text.byteLength d.text) [node]) := by
    rw [Node.parse_eq_ok, String.toList_ofList]
    refine Node.ofSource_eq_ok.mpr ⟨run, hscan, ?_, rfl⟩
    rw [Lexeme.runs_of_inner hitem.inner (by rintro rfl; cases hfirst)]
    exact .cons hitem .nil
  have hdirectives : (Node.cover d.text .recipe 0 (Text.byteLength d.text) [node]).childrenBy
      .directive = [node] := List.filter_cons_of_pos (by rw [hrule]; rfl)
  have htable := compile_of_parse hparse
  rw [hdirectives, List.mapM_cons, Node.group, htokens] at htable
  exact ⟨_, htable, ⟨d.tokens, node.span⟩, List.mem_singleton_self _, rfl⟩

/-- Every number of a compiled recipe has a finite value and writes a decimal in range: less than the
number halfway from the greatest finite value to 2^1024. No magnitude in it is an invalid result, and
those of a token are all finite exactly if the decimals of its unit literals are all in range too. -/
theorem magnitudes_of_compile {source : String} {table : SymbolTable} (h : compile source = .ok table)
    {group : TokenGroup} (hgroup : group ∈ table.groups) {token : Token} (htoken : token ∈ group.tokens) :
    (∀ n ∈ token.numerals, n.value.isFinite = true ∧ ∃ d ∈ n.decimal?, Binary64.InRange d) ∧
      (∀ x ∈ token.magnitudes, x ≠ .nan) ∧
      ((∀ x ∈ token.magnitudes, x.isFinite = true) ↔
        ∀ d ∈ token.unitDecimals, Binary64.InRange d) :=
  ⟨fun n _ => ⟨n.finite, n.exists_decimal⟩, (sound_of_compile h hgroup token htoken).magnitudes⟩

/-- A directive with a size in range. -/
theorem magnitudes_of_compile_limit :
    ∃ table, compile "limit 1.5KB" = .ok table ∧ ∃ group ∈ table.groups, ∃ token ∈ group.tokens,
      token.kind = .byteSize ∧ ∀ x ∈ token.magnitudes, x.isFinite = true := by
  have hnumber : Lexeme.IsDecimal (['1'] ++ '.' :: ['5']) :=
    .fraction (List.cons_ne_nil _ _) (by simp) (List.cons_ne_nil _ _) (by simp)
  let size : Written.Measure ByteUnit :=
    ⟨['1', '.', '5'], ['K', 'B'], .ofDecimal false ⟨15, -1⟩, .kb, hnumber, by decide +kernel, by decide⟩
  let name : Written.Name := ⟨'l', "imit".toList, rfl, by simp [Lexeme.Pattern.continuesName], by decide⟩
  obtain ⟨table, htable, group, hgroup, htokens⟩ := compile_directive ⟨false, name, [.size size]⟩
  have htoken : .byteSize size.quantity ∈ group.tokens := by
    rw [htokens]
    exact List.mem_cons_of_mem _ (List.mem_singleton_self _)
  have hrange : ∀ d ∈ (Token.byteSize size.quantity).unitDecimals, Binary64.InRange d := by
    simp only [Written.Measure.quantity, Written.Measure.text, size]
    decide +kernel
  exact ⟨table, htable, group, hgroup, _, htoken, rfl,
    (magnitudes_of_compile htable hgroup htoken).2.2.mpr hrange⟩

/-- A size of ten to the power of 309 bytes compiles, and its magnitude is infinite. -/
theorem magnitudes_of_compile_infinite :
    ∃ table, compile (String.ofList ("x 1".toList ++ List.replicate 309 '0' ++ ['B'])) = .ok table ∧
      ∃ group ∈ table.groups, ∃ token ∈ group.tokens, ∃ x ∈ token.magnitudes,
        x.isFinite = false := by
  have hdigits : ∀ c ∈ '1' :: List.replicate 309 '0', c.isDigit = true := by
    refine List.forall_mem_cons.mpr ⟨rfl, fun c hc => ?_⟩
    rw [List.eq_of_mem_replicate hc]
    rfl
  have hreads : Binary64.parse? ('1' :: List.replicate 309 '0') = some (.infinite false) := by
    decide +kernel
  generalize List.replicate 309 '0' = zeros at hdigits hreads ⊢
  let size : Written.Measure ByteUnit :=
    ⟨'1' :: zeros, ['B'], .infinite false, .b, .whole (List.cons_ne_nil _ _) hdigits, hreads, by decide⟩
  let name : Written.Name := ⟨'x', [], rfl, nofun, by decide⟩
  have htext : (Written.Directive.mk false name [.size size]).text =
      "x 1".toList ++ zeros ++ ['B'] := by
    simp [Written.Directive.text, Written.Directive.command, Written.Name.text, Written.Argument.text,
      Written.Measure.text, name, size]
  obtain ⟨table, htable, group, hgroup, htokens⟩ := compile_directive ⟨false, name, [.size size]⟩
  rw [htext] at htable
  have htoken : .byteSize size.quantity ∈ group.tokens := by
    rw [htokens]
    exact List.mem_cons_of_mem _ (List.mem_singleton_self _)
  exact ⟨table, htable, group, hgroup, _, htoken, _, Token.mem_magnitudes_byteSize _, rfl⟩

end SymbolTable

end RowRecipe
