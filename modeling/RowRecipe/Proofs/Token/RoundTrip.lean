import RowRecipe.Json.Basic
import RowRecipe.Proofs.OrderedMap
import RowRecipe.Proofs.Outcome
import RowRecipe.Proofs.Token.Numerals

/-!
Tokens as data and back. What a token is written as is read back as an equal token, if its quantities
are ones that were read themselves and no key of its properties repeats; and reading a token never
gives another sort of token.
-/

namespace RowRecipe

section Lists

variable {α : Type} {read : Json → Except TokenError α} {same : α → α → Bool} {json : α → Json}

theorem Returns.of_eq {a : α} (hread : read (json a) = .ok a) (hsame : same a a = true) :
    Returns read same json a :=
  ⟨a, hread, hsame, hsame, rfl⟩

theorem sameLists_of_forall₂ {as bs : List α} (h : List.Forall₂ (fun a b => same a b = true) as bs) :
    sameLists same as bs = true := by
  induction h with
  | nil => rfl
  | cons hab _ ih => rw [sameLists, hab, ih, Bool.and_self]

/-- A list returns if its elements do. -/
theorem Returns.list (kind : TokenKind) {as : List α} (h : ∀ a ∈ as, Returns read same json a) :
    Returns (Token.listOf kind read) (sameLists same) (fun as => .array (as.map json)) as := by
  obtain ⟨bs, hbs⟩ := Outcome.exists_forall₂_iff.mpr h
  refine ⟨bs, ?_, sameLists_of_forall₂ ?_, sameLists_of_forall₂ ?_, congrArg Json.array ?_⟩
  · exact Outcome.mapM_eq_ok.mpr (List.forall₂_map_left_iff.mpr (hbs.imp fun _ _ h => h.1))
  · exact hbs.flip.imp fun _ _ h => h.2.equal
  · exact hbs.imp fun _ _ h => h.2.equal_symm
  · exact Outcome.map_eq_map_of_forall₂ (hbs.flip.imp fun _ _ h => h.2.alike)

end Lists

/-- Tokens of the kind hold neither quantities nor other tokens. -/
def TokenKind.isPlain : TokenKind → Bool
  | .properties | .byteSize | .timeDuration => false
  | _ => true

namespace Token

theorem listOf_map {α : Type} {read : Json → Except TokenError α} (kind : TokenKind)
    (json : α → Json) (h : ∀ a, read (json a) = .ok a) (as : List α) :
    listOf kind read (.array (as.map json)) = .ok as := by
  apply Outcome.mapM_eq_ok.mpr
  rw [List.forall₂_map_left_iff, List.forall₂_same]
  exact fun a _ => h a

theorem named?_name (kind : TokenKind) : TokenKind.named? kind.name = some kind := by
  cases kind <;> rfl

section Members

variable {json : Json} {kind : TokenKind} {value : Json}

theorem ofJson_value (htype : json.member? "type" = some (.string kind.name))
    (hvalue : json.member? "value" = some value) (hkind : kind ≠ .properties) :
    ofJson json = ofValue kind value := by
  rw [ofJson]
  simp only [htype, named?_name]
  split
  · rename_i hnone
    rw [hvalue] at hnone
    cases hnone
  · rename_i found hfound
    rw [hvalue] at hfound
    obtain rfl := Option.some.inj hfound
    split
    · exact (hkind rfl).elim
    · rfl

theorem ofJson_properties {members : List (String × Json)}
    (htype : json.member? "type" = some (.string TokenKind.properties.name))
    (hvalue : json.member? "value" = some (.object members)) :
    ofJson json = (ofEntries members).map .properties := by
  rw [ofJson]
  simp only [htype, named?_name]
  split
  · rename_i hnone
    rw [hvalue] at hnone
    cases hnone
  · rename_i found hfound
    rw [hvalue] at hfound
    obtain rfl := Option.some.inj hfound
    split
    · rename_i heq _
      rw [Json.object.inj heq]
    · rfl

/-- What an object that stands for a token says. -/
theorem exists_of_ofJson_eq_ok {token : Token} (h : ofJson json = .ok token) :
    ∃ value, json.member? "value" = some value ∧
      ((∃ kind, ofValue kind value = .ok token) ∨
        ∃ members entries, value = .object members ∧ ofEntries members = .ok entries ∧
          token = .properties entries) := by
  rw [ofJson] at h
  split at h
  · split at h
    · cases h
    · split at h
      · cases h
      · rename_i value hvalue
        refine ⟨value, hvalue, ?_⟩
        split at h
        · obtain ⟨entries, hentries, rfl⟩ := Outcome.map_eq_ok.mp h
          exact .inr ⟨_, entries, rfl, hentries, rfl⟩
        · exact .inl ⟨_, h⟩
  · cases h

end Members

theorem ofEntries_eq_ok {members : List (String × Json)} {entries : List (String × Token)} :
    ofEntries members = .ok entries ↔
      List.Forall₂ (fun m e => m.1 = e.1 ∧ ofJson m.2 = .ok e.2) members entries := by
  induction members generalizing entries with
  | nil =>
      rw [ofEntries, List.forall₂_nil_left_iff]
      exact ⟨fun h => (Except.ok.inj h).symm, fun h => congrArg Except.ok h.symm⟩
  | cons m rest ih =>
      obtain ⟨key, value⟩ := m
      rw [ofEntries, List.forall₂_cons_left_iff, Outcome.bind_eq_ok]
      constructor
      · rintro ⟨token, htoken, hrest⟩
        obtain ⟨more, hmore, h⟩ := Outcome.bind_eq_ok.mp hrest
        exact ⟨(key, token), more, ⟨rfl, htoken⟩, ih.mp hmore, (Except.ok.inj h).symm⟩
      · rintro ⟨⟨key', token⟩, more, ⟨rfl, htoken⟩, hmore, rfl⟩
        exact ⟨token, htoken, Outcome.bind_eq_ok.mpr ⟨more, ih.mpr hmore, rfl⟩⟩

theorem jsonEntries_eq (entries : List (String × Token)) :
    jsonEntries entries = entries.map fun e => (e.1, e.2.json) := by
  induction entries with
  | nil => rw [jsonEntries, List.map_nil]
  | cons e rest ih => rw [jsonEntries, ih, List.map_cons]

/-- Every quantity of the token was read, and no key of its properties repeats. -/
inductive Sound : Token → Prop
  | plain {token : Token} (h : token.kind.isPlain = true) : Sound token
  | byteSize {text : String} {size : ByteSize} (h : Quantity.parse text = .ok size) :
      Sound (.byteSize size)
  | timeDuration {text : String} {duration : TimeDuration}
      (h : Quantity.parse text = .ok duration) : Sound (.timeDuration duration)
  | properties {entries : List (String × Token)} (hdistinct : (entries.map Prod.fst).Nodup)
      (h : ∀ e ∈ entries, Sound e.2) : Sound (.properties entries)

theorem quantityOf_eq_ok {U : Type} [UnitFamily U] {kind : TokenKind} {value : Json}
    {q : Quantity U} (h : quantityOf kind value = .ok q) : ∃ text, Quantity.parse text = .ok q := by
  obtain ⟨text, -, hparse⟩ := Outcome.bind_eq_ok.mp h
  exact ⟨text, Outcome.mapError_eq_ok.mp hparse⟩

theorem sound_ofValue {kind : TokenKind} {value : Json} {token : Token}
    (h : ofValue kind value = .ok token) : token.Sound := by
  unfold ofValue at h
  split at h
  case h_11 => cases h
  case h_14 =>
    obtain ⟨q, hq, rfl⟩ := Outcome.map_eq_ok.mp h
    obtain ⟨text, htext⟩ := quantityOf_eq_ok hq
    exact .byteSize htext
  case h_15 =>
    obtain ⟨q, hq, rfl⟩ := Outcome.map_eq_ok.mp h
    obtain ⟨text, htext⟩ := quantityOf_eq_ok hq
    exact .timeDuration htext
  all_goals
    obtain ⟨content, -, rfl⟩ := Outcome.map_eq_ok.mp h
    exact .plain rfl

/-- Whatever is read is a token of this sort. -/
theorem sound_ofJson {json : Json} (hproper : json.Proper) {token : Token}
    (h : ofJson json = .ok token) : token.Sound := by
  have hall : (∀ token, ofJson json = .ok token → token.Sound) ∧
      ∀ members entries, json = .object members → ofEntries members = .ok entries →
        Sound (.properties entries) := by
    clear h token
    have hnone : ∀ {json : Json}, json.member? "value" = none →
        ∀ token, ofJson json = .ok token → token.Sound := by
      intro json hnone token h
      obtain ⟨value, hvalue, -⟩ := exists_of_ofJson_eq_ok h
      rw [hnone] at hvalue
      cases hvalue
    induction hproper with
    | null => exact ⟨hnone rfl, fun _ _ heq => by cases heq⟩
    | bool => exact ⟨hnone rfl, fun _ _ heq => by cases heq⟩
    | number => exact ⟨hnone rfl, fun _ _ heq => by cases heq⟩
    | string => exact ⟨hnone rfl, fun _ _ heq => by cases heq⟩
    | array => exact ⟨hnone rfl, fun _ _ heq => by cases heq⟩
    | @object members hdistinct _ ih =>
        constructor
        · intro token h
          obtain ⟨value, hvalue, ⟨kind, hread⟩ | ⟨inner, entries, heq, hentries, rfl⟩⟩ :=
            exists_of_ofJson_eq_ok h
          · exact sound_ofValue hread
          · exact (ih _ (Entries.mem_of_get? hvalue)).2 inner entries heq hentries
        · rintro _ entries ⟨rfl⟩ hentries
          have hread := ofEntries_eq_ok.mp hentries
          have hkeys : members.map Prod.fst = entries.map Prod.fst :=
            Outcome.map_eq_map_of_forall₂ (hread.imp fun _ _ h => h.1)
          refine .properties (hkeys ▸ hdistinct) fun e he => ?_
          obtain ⟨m, hm, -, hjson⟩ := Outcome.exists_mem_of_forall₂ hread e he
          exact (ih m hm).1 e.2 hjson
  exact hall.1 token h

/-- A token with a single value returns if its value does. -/
theorem returns_of_value {α : Type} {read : Json → Except TokenError α} {sameValue : α → α → Bool}
    {valueJson : α → Json} {wrap : α → Token} (kind : TokenKind) (hkind : kind ≠ .properties)
    (hread : ∀ value, ofValue kind value = (read value).map wrap)
    (hjson : ∀ a, (wrap a).json =
      .object [("type", .string kind.name), ("value", valueJson a)])
    (hsame : ∀ a b, (wrap a).same (wrap b) = sameValue a b) {a : α}
    (h : Returns read sameValue valueJson a) : Returns ofJson same json (wrap a) := by
  obtain ⟨b, hb, hmirrors⟩ := h
  refine ⟨wrap b, ?_, ?_, ?_, ?_⟩
  · rw [hjson, ofJson_value rfl rfl hkind, hread, hb]
    rfl
  · rw [hsame, hmirrors.equal]
  · rw [hsame, hmirrors.equal_symm]
  · rw [hjson, hjson, hmirrors.alike]

theorem returns_string (kind : TokenKind) (s : String) :
    Returns (stringOf kind) (· == ·) Json.string s :=
  .of_eq rfl (beq_self_eq_true s)

theorem returns_strings (kind : TokenKind) (names : List String) :
    Returns (listOf kind (stringOf kind)) (· == ·) Json.ofStrings names :=
  .of_eq (listOf_map kind Json.string (fun _ => rfl) names) (beq_self_eq_true names)

theorem returns_range (r : NumericRange) : Returns rangeOf NumericRange.same rangeJson r := by
  obtain ⟨low, hlow, hlowSame⟩ := r.low.returns
  obtain ⟨high, hhigh, hhighSame⟩ := r.high.returns
  refine ⟨⟨low, high, r.label⟩, ?_, ?_, ?_, ?_⟩
  · change (do
      let low ← numeralOf r.low.json
      let high ← numeralOf r.high.json
      Except.ok (NumericRange.mk low high r.label)) = _
    rw [hlow, hhigh]
    rfl
  · rw [NumericRange.same, hlowSame.equal, hhighSame.equal, beq_self_eq_true]
    rfl
  · rw [NumericRange.same, hlowSame.equal_symm, hhighSame.equal_symm, beq_self_eq_true]
    rfl
  · rw [rangeJson, rangeJson, hlowSame.alike, hhighSame.alike]

theorem returns_plain {token : Token} (h : token.kind.isPlain = true) :
    Returns ofJson same json token := by
  cases token with
  | identifier s =>
      exact returns_of_value .identifier (by decide) (fun _ => rfl) (fun _ => rfl)
        (fun _ _ => by rw [same]) (returns_string _ s)
  | directiveName s =>
      exact returns_of_value .directiveName (by decide) (fun _ => rfl) (fun _ => rfl)
        (fun _ _ => by rw [same]) (returns_string _ s)
  | columnName s =>
      exact returns_of_value .columnName (by decide) (fun _ => rfl) (fun _ => rfl)
        (fun _ _ => by rw [same]) (returns_string _ s)
  | columnNameList names =>
      exact returns_of_value .columnNameList (by decide) (fun _ => rfl) (fun _ => rfl)
        (fun _ _ => by rw [same]) (returns_strings _ names)
  | text s =>
      exact returns_of_value .text (by decide) (fun _ => rfl) (fun _ => rfl)
        (fun _ _ => by rw [same]) (returns_string _ s)
  | textList contents =>
      exact returns_of_value .textList (by decide) (fun _ => rfl) (fun _ => rfl)
        (fun _ _ => by rw [same]) (returns_strings _ contents)
  | numeric n =>
      exact returns_of_value .numeric (by decide) (fun _ => rfl) (fun _ => rfl)
        (fun _ _ => by rw [same]) n.returns
  | numericList ns =>
      exact returns_of_value .numericList (by decide) (fun _ => rfl) (fun _ => rfl)
        (fun _ _ => by rw [same]) (.list _ fun n _ => n.returns)
  | bool b =>
      exact returns_of_value .bool (by decide) (fun _ => rfl) (fun _ => rfl)
        (fun _ _ => by rw [same]) (.of_eq rfl (beq_self_eq_true b))
  | boolList bs =>
      exact returns_of_value .boolList (by decide) (fun _ => rfl) (fun _ => rfl)
        (fun _ _ => by rw [same]) (.of_eq (listOf_map _ Json.bool (fun _ => rfl) bs) (beq_self_eq_true bs))
  | properties => cases h
  | ranges rs =>
      exact returns_of_value .ranges (by decide) (fun _ => rfl) (fun _ => rfl)
        (fun _ _ => by rw [same]) (.list _ fun r _ => returns_range r)
  | expression s =>
      exact returns_of_value .expression (by decide) (fun _ => rfl) (fun _ => rfl)
        (fun _ _ => by rw [same]) (returns_string _ s)
  | byteSize => cases h
  | timeDuration => cases h

theorem quantityOf_text {U : Type} [UnitFamily U] (kind : TokenKind) {text : String}
    {q : Quantity U} (h : Quantity.parse text = .ok q) :
    quantityOf kind (.string q.text) = .ok q := by
  change (Quantity.parse q.text).mapError TokenError.unit = .ok q
  rw [Quantity.parse_text h]
  rfl

theorem sameEntries_eq_true {entries others : List (String × Token)}
    (h : ∀ e ∈ entries, ∃ other, Entries.get? e.1 others = some other ∧ e.2.same other = true) :
    sameEntries entries others = true := by
  induction entries with
  | nil => rw [sameEntries]
  | cons e rest ih =>
      obtain ⟨⟨other, hother, hsame⟩, hrest⟩ := List.forall_mem_cons.mp h
      rw [sameEntries, hother, ih hrest, Bool.and_true]
      exact hsame

/-- Properties are equal if their entries are, one after the other. -/
theorem same_properties {entries others : List (String × Token)}
    (hdistinct : (others.map Prod.fst).Nodup)
    (h : List.Forall₂ (fun e o => e.1 = o.1 ∧ e.2.same o.2 = true) entries others) :
    same (.properties entries) (.properties others) = true := by
  rw [same, Bool.and_eq_true, beq_iff_eq]
  refine ⟨h.length_eq, sameEntries_eq_true fun e he => ?_⟩
  obtain ⟨o, ho, hkey, hsame⟩ := Outcome.exists_mem_of_forall₂ h.flip e he
  refine ⟨o.2, ?_, hsame⟩
  rw [hkey]
  exact Entries.get?_of_mem hdistinct ho

theorem returns_properties {entries : List (String × Token)}
    (hdistinct : (entries.map Prod.fst).Nodup)
    (h : ∀ e ∈ entries, Returns ofJson same json e.2) :
    Returns ofJson same json (.properties entries) := by
  have hall : ∀ e ∈ entries, ∃ r : String × Token, e.1 = r.1 ∧ ofJson e.2.json = .ok r.2 ∧
      Mirrors same json r.2 e.2 := by
    intro e he
    obtain ⟨token, hread, hmirrors⟩ := h e he
    exact ⟨(e.1, token), rfl, hread, hmirrors⟩
  obtain ⟨found, hfound⟩ := Outcome.exists_forall₂_iff.mpr hall
  have hkeys : entries.map Prod.fst = found.map Prod.fst :=
    Outcome.map_eq_map_of_forall₂ (hfound.imp fun _ _ h => h.1)
  have hread : ofEntries (jsonEntries entries) = .ok found := by
    rw [jsonEntries_eq, ofEntries_eq_ok, List.forall₂_map_left_iff]
    exact hfound.imp fun _ _ h => ⟨h.1, h.2.1⟩
  have hentries : jsonEntries found = jsonEntries entries := by
    rw [jsonEntries_eq, jsonEntries_eq]
    exact Outcome.map_eq_map_of_forall₂ (hfound.flip.imp fun _ _ h => Prod.ext h.1.symm h.2.2.alike)
  have hjson : ∀ es, json (.properties es) = .object [("type", .string TokenKind.properties.name),
      ("value", .object (jsonEntries es))] := fun es => by rw [json, kind]
  refine ⟨.properties found, ?_, ?_, ?_, ?_⟩
  · rw [hjson, ofJson_properties rfl rfl, hread]
    rfl
  · exact same_properties hdistinct (hfound.flip.imp fun _ _ h => ⟨h.1.symm, h.2.2.equal⟩)
  · exact same_properties (hkeys ▸ hdistinct) (hfound.imp fun _ _ h => ⟨h.1, h.2.2.equal_symm⟩)
  · rw [hjson, hjson, hentries]

/-- Whatever token is sound comes back. -/
theorem Sound.returns {token : Token} (h : token.Sound) : Returns ofJson same json token := by
  induction h with
  | plain h => exact returns_plain h
  | @byteSize text size h =>
      have hread : ofValue .byteSize (.string size.text) = .ok (.byteSize size) := by
        change (quantityOf .byteSize (.string size.text)).map Token.byteSize = _
        rw [quantityOf_text _ h]
        rfl
      refine .of_eq ((ofJson_value rfl rfl (by decide)).trans hread) ?_
      rw [same]
      exact Quantity.same_self h
  | @timeDuration text duration h =>
      have hread : ofValue .timeDuration (.string duration.text) = .ok (.timeDuration duration) := by
        change (quantityOf .timeDuration (.string duration.text)).map Token.timeDuration = _
        rw [quantityOf_text _ h]
        rfl
      refine .of_eq ((ofJson_value rfl rfl (by decide)).trans hread) ?_
      rw [same]
      exact Quantity.same_self h
  | properties hdistinct _ ih => exact returns_properties hdistinct ih

end Token

end RowRecipe
