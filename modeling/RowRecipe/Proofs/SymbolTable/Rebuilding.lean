import RowRecipe.Proofs.SymbolTable.Groups
import RowRecipe.Proofs.Token.RoundTrip

/-!
Compiled recipes as data and back. The tokens of a recipe are read back from what they are written as,
and so are those that are nested in properties to any depth; so all groups of a compiled recipe can
be made again from its JSON form.
-/

namespace RowRecipe

open Outcome

namespace Node

variable {span : Span} {node : Node}

theorem quantity_eq_ok {U : Type} [UnitFamily U] {q : Quantity U} (h : node.quantity span = .ok q) :
    ∃ text, Quantity.parse text = .ok q :=
  ⟨_, mapError_eq_ok.mp h⟩

theorem sound_propertyValue {token : Token} (h : node.propertyValue span = .ok token) :
    token.Sound := by
  unfold propertyValue at h
  split at h
  case h_1 =>
    obtain ⟨n, -, rfl⟩ := map_eq_ok.mp h
    exact .plain rfl
  case h_5 => cases h
  all_goals
    obtain rfl := Except.ok.inj h
    exact .plain rfl

theorem sound_propertyEntry {entry : String × Token} (h : node.propertyEntry span = .ok entry) :
    entry.2.Sound := by
  unfold propertyEntry at h
  split at h
  · obtain ⟨token, htoken, rfl⟩ := map_eq_ok.mp h
    exact sound_propertyValue htoken
  · cases h

theorem sound_token {token : Token} (h : node.token span = .ok token) : token.Sound := by
  unfold Node.token at h
  dsimp only at h
  split at h
  case h_17 => cases h
  case h_12 =>
    obtain ⟨q, hq, rfl⟩ := map_eq_ok.mp h
    obtain ⟨text, htext⟩ := quantity_eq_ok hq
    exact .byteSize htext
  case h_13 =>
    obtain ⟨q, hq, rfl⟩ := map_eq_ok.mp h
    obtain ⟨text, htext⟩ := quantity_eq_ok hq
    exact .timeDuration htext
  case h_14 =>
    obtain ⟨entries, hentries, rfl⟩ := map_eq_ok.mp h
    refine .properties (Entries.nodup_ofList entries) fun e he => ?_
    obtain ⟨part, -, hpart⟩ :=
      exists_mem_of_forall₂ (mapM_eq_ok.mp hentries) e (Entries.mem_of_mem_ofList he)
    exact sound_propertyEntry hpart
  case h_8 | h_9 | h_15 =>
    obtain ⟨content, -, rfl⟩ := map_eq_ok.mp h
    exact .plain rfl
  all_goals
    obtain rfl := Except.ok.inj h
    exact .plain rfl

end Node

namespace SymbolTable

theorem sound_of_compile {source : String} {table : SymbolTable} (h : compile source = .ok table)
    {group : TokenGroup} (hgroup : group ∈ table.groups) : ∀ token ∈ group.tokens, token.Sound := by
  obtain ⟨tree, -, hgroups⟩ := exists_tree_of_compile h
  obtain ⟨node, -, hnode⟩ := exists_mem_of_forall₂ (mapM_eq_ok.mp hgroups) group hgroup
  obtain ⟨tokens, htokens, rfl⟩ := map_eq_ok.mp hnode
  intro token htoken
  obtain ⟨child, -, hchild⟩ := exists_mem_of_forall₂ (mapM_eq_ok.mp htokens) token htoken
  exact Node.sound_token hchild

end SymbolTable

/-- The tokens that there are: those of compiled recipes, those that were read, and properties made of
these. -/
inductive Token.Obtained : Token → Prop
  | compiled {source : String} {table : SymbolTable} {group : TokenGroup} {token : Token}
      (h : SymbolTable.compile source = .ok table) (hgroup : group ∈ table.groups)
      (htoken : token ∈ group.tokens) : Obtained token
  | read {json : Json} {token : Token} (hproper : json.Proper) (h : ofJson json = .ok token) :
      Obtained token
  | nested {entries : List (String × Token)} (hdistinct : (entries.map Prod.fst).Nodup)
      (h : ∀ e ∈ entries, Obtained e.2) : Obtained (.properties entries)

theorem Token.Obtained.sound {token : Token} (h : token.Obtained) : token.Sound := by
  induction h with
  | compiled h hgroup htoken => exact SymbolTable.sound_of_compile h hgroup _ htoken
  | read hproper h => exact sound_ofJson hproper h
  | nested hdistinct _ ih => exact .properties hdistinct ih

namespace Json

def asNatural? : Json → Option Nat
  | .number (.integer i) => i.toNat?
  | _ => none

def asString? : Json → Option String
  | .string s => some s
  | _ => none

def asArray? : Json → Option (List Json)
  | .array elements => some elements
  | _ => none

end Json

/-- The span that an object stands for. -/
def Span.ofJson? (json : Json) : Option Span := do
  let startLine ← (← json.member? "line").asNatural?
  let startColumn ← (← json.member? "column").asNatural?
  let endLine ← (← json.member? "endLine").asNatural?
  let endColumn ← (← json.member? "endColumn").asNatural?
  let source ← (← json.member? "source").asString?
  some ⟨startLine, startColumn, endLine, endColumn, source⟩

theorem Span.ofJson?_json (span : Span) : ofJson? span.json = some span := rfl

/-- The group that an object stands for. -/
def TokenGroup.ofJson? (json : Json) : Option TokenGroup := do
  let span ← Span.ofJson? (← json.member? "source")
  let elements ← (← json.member? "tokens").asArray?
  let tokens ← (elements.mapM Token.ofJson).toOption
  some ⟨tokens, span⟩

/-- The groups of the recipe that an object stands for. -/
def SymbolTable.groupsOf? (json : Json) : Option (List TokenGroup) := do
  let elements ← (← json.member? "directives").asArray?
  elements.mapM TokenGroup.ofJson?

/-- The two groups have the same place and, one after the other, equal tokens. -/
def TokenGroup.same (a b : TokenGroup) : Bool :=
  a.span == b.span && sameLists Token.same a.tokens b.tokens

/-- A group of sound tokens is made again. -/
theorem TokenGroup.exists_ofJson?_json {group : TokenGroup}
    (h : ∀ token ∈ group.tokens, token.Sound) :
    ∃ found, ofJson? group.json = some found ∧ found.same group = true ∧
      group.same found = true := by
  obtain ⟨tokens, htokens⟩ := exists_forall₂_iff.mpr fun token ht => (h token ht).returns
  have hread : (group.tokens.map Token.json).mapM Token.ofJson = .ok tokens :=
    mapM_eq_ok.mpr (List.forall₂_map_left_iff.mpr (htokens.imp fun _ _ h => h.1))
  refine ⟨⟨tokens, group.span⟩, ?_, ?_, ?_⟩
  · change ((Span.ofJson? group.span.json).bind fun span =>
      ((group.tokens.map Token.json).mapM Token.ofJson).toOption.bind fun tokens =>
        some (TokenGroup.mk tokens span)) = _
    rw [Span.ofJson?_json, hread]
    rfl
  · rw [TokenGroup.same, beq_self_eq_true, Bool.true_and]
    exact sameLists_of_forall₂ (htokens.flip.imp fun _ _ h => h.2.equal)
  · rw [TokenGroup.same, beq_self_eq_true, Bool.true_and]
    exact sameLists_of_forall₂ (htokens.imp fun _ _ h => h.2.equal_symm)

namespace SymbolTable

/-- Tokens survive JSON: what a token is written as is read back as an equal one, which is written the
same way again. So all groups of a compiled recipe are made again, in their order, from what its table
is written as. -/
theorem json_restores :
    (∀ token : Token, token.Obtained → ∃ found, Token.ofJson token.json = .ok found ∧
      found.same token = true ∧ token.same found = true ∧ found.json = token.json) ∧
    ∀ source table, compile source = .ok table → ∃ groups, groupsOf? table.json = some groups ∧
      List.Forall₂ (fun found group => found.same group = true ∧ group.same found = true)
        groups table.groups := by
  constructor
  · intro token htoken
    obtain ⟨found, hread, hmirrors⟩ := htoken.sound.returns
    exact ⟨found, hread, hmirrors.equal, hmirrors.equal_symm, hmirrors.alike⟩
  · intro source table htable
    obtain ⟨groups, hgroups⟩ := exists_forall₂_iff.mpr fun group hgroup =>
      TokenGroup.exists_ofJson?_json (sound_of_compile htable hgroup)
    refine ⟨groups, ?_, hgroups.flip.imp fun _ _ h => h.2⟩
    change (table.groups.map TokenGroup.json).mapM TokenGroup.ofJson? = some groups
    exact mapM_eq_some.mpr (List.forall₂_map_left_iff.mpr (hgroups.imp fun _ _ h => h.1))

/-- A recipe of one directive, and the least number that takes all 64 bits, inside of properties. -/
theorem json_restores_keep :
    let group : TokenGroup := ⟨[.directiveName "keep", .columnName "a"], ⟨1, 0, 1, 7, "keep :a"⟩⟩
    let table : SymbolTable := ⟨[group], [], none⟩
    let number : Json.Number := .integer (2 ^ 63)
    compile "keep :a" = .ok table ∧
      (∃ found, groupsOf? table.json = some [found] ∧ found.same group = true) ∧
      ∃ n : Numeral, Token.numeralOf (.number number) = .ok n ∧
        ∃ found, Token.ofJson (Token.properties [("limit", .numeric n)]).json = .ok found ∧
          found.same (.properties [("limit", .numeric n)]) = true := by
  intro group table number
  obtain ⟨htokens, hgroups⟩ := json_restores
  have htable : compile "keep :a" = .ok table := by
    cbv
  have hproper : (Json.number number).Proper := .number ⟨by decide, by decide⟩
  have hfinite : number.toBinary64.isFinite = true := Binary64.isFinite_ofInt (by decide)
  have hn := Numeral.numeralOf_number number hfinite
  refine ⟨htable, ?_, _, hn, ?_⟩
  · obtain ⟨groups, hread, hsame⟩ := hgroups _ _ htable
    obtain ⟨found, more, ⟨hfound, -⟩, hmore, rfl⟩ := List.forall₂_cons_right_iff.mp hsame
    obtain rfl := List.forall₂_nil_right_iff.mp hmore
    exact ⟨found, hread, hfound⟩
  · have hread : Token.ofJson (.object [("type", .string "NUMERIC"), ("value", .number number)]) =
        .ok (.numeric (Numeral.ofNumber number hfinite)) := by
      have hkind : TokenKind.numeric ≠ .properties := by decide
      refine (Token.ofJson_value rfl rfl hkind).trans ?_
      change (Token.numeralOf (.number number)).map Token.numeric = _
      rw [hn]
      rfl
    have hmembers : (Json.object [("type", .string "NUMERIC"), ("value", .number number)]).Proper := by
      refine .object (by decide) ?_
      rw [List.forall_mem_cons, List.forall_mem_singleton]
      exact ⟨.string _, hproper⟩
    have hobtained : (Token.properties [("limit", .numeric (.ofNumber number hfinite))]).Obtained :=
      .nested (List.nodup_singleton _) (List.forall_mem_singleton.mpr (.read hmembers hread))
    obtain ⟨found, hfound, hsame, -⟩ := htokens _ hobtained
    exact ⟨found, hfound, hsame⟩

end SymbolTable

end RowRecipe
