import RowRecipe.Token.Basic

/-!
Tokens as data: an object with the kind of the token and its value, and for quantities their count of
base units and their unit as well. What is written can be read back.
-/

namespace RowRecipe

/-- Why a JSON value is no token. -/
inductive TokenError where
  | missingType
  | unknownType (name : String)
  | missingValue (kind : TokenKind)
  | notString (kind : TokenKind) (found : Json)
  | notBoolean (kind : TokenKind) (found : Json)
  | notArray (kind : TokenKind)
  | notObject (kind : TokenKind)
  | notNumber (found : Json)
  | outOfRange (n : Json.Number)
  | notNumeral (text : String)
  | missingRangePart (name : String)
  | unit (error : UnitError)

def TokenError.message : TokenError → String
  | .missingType => "token is missing its 'type' field"
  | .unknownType name => s!"unknown token type '{name}'"
  | .missingValue kind => s!"{kind.name} token is missing its 'value' field"
  | .notString kind found => s!"{kind.name} value must be a string, got {found.compact}"
  | .notBoolean kind found => s!"{kind.name} value must be a boolean, got {found.compact}"
  | .notArray kind => s!"{kind.name} value must be an array"
  | .notObject kind => s!"{kind.name} value must be an object"
  | .notNumber found => s!"expected a number, got {found.compact}"
  | .outOfRange n => s!"numeric value out of range: {String.ofList n.text}"
  | .notNumeral text => s!"invalid numeric literal '{text}'"
  | .missingRangePart name => s!"range entry is missing '{name}'"
  | .unit error => error.message

namespace Token

def rangeJson (r : NumericRange) : Json :=
  .object [("low", r.low.json), ("high", r.high.json), ("label", .string r.label)]

mutual

/-- The token as an object: its kind, its value, and for a quantity its count and unit. -/
def json (t : Token) : Json :=
  let kind : String × Json := ("type", .string t.kind.name)
  match t with
  | .identifier s | .directiveName s | .columnName s | .text s | .expression s =>
      .object [kind, ("value", .string s)]
  | .columnNameList names | .textList names => .object [kind, ("value", Json.ofStrings names)]
  | .numeric n => .object [kind, ("value", n.json)]
  | .numericList ns => .object [kind, ("value", .array (ns.map Numeral.json))]
  | .bool b => .object [kind, ("value", .bool b)]
  | .boolList bs => .object [kind, ("value", .array (bs.map .bool))]
  | .properties entries => .object [kind, ("value", .object (jsonEntries entries))]
  | .ranges rs => .object [kind, ("value", .array (rs.map rangeJson))]
  | .byteSize size =>
      .object [kind, ("value", .string size.text), ("bytes", Json.ofNat size.bytes),
        ("unit", .string size.unit.symbol)]
  | .timeDuration duration =>
      .object [kind, ("value", .string duration.text), ("nanos", Json.ofNat duration.nanos),
        ("unit", .string duration.unit.symbol)]

def jsonEntries : List (String × Token) → List (String × Json)
  | [] => []
  | (key, value) :: rest => (key, json value) :: jsonEntries rest

end

def stringOf (kind : TokenKind) : Json → Except TokenError String
  | .string s => .ok s
  | found => .error (.notString kind found)

def boolOf (kind : TokenKind) : Json → Except TokenError Bool
  | .bool b => .ok b
  | found => .error (.notBoolean kind found)

/-- A number, or a string that writes one. -/
def numeralOf : Json → Except TokenError Numeral
  | .number n =>
      match Numeral.parse? (String.ofList n.text) with
      | some numeral => .ok numeral
      | none => .error (.outOfRange n)
  | .string s =>
      match Numeral.parse? s with
      | some numeral => .ok numeral
      | none => .error (.notNumeral s)
  | found => .error (.notNumber found)

def listOf {α : Type} (kind : TokenKind) (item : Json → Except TokenError α) :
    Json → Except TokenError (List α)
  | .array elements => elements.mapM item
  | _ => .error (.notArray kind)

def rangePart (name : String) (json : Json) : Except TokenError Json :=
  match json.member? name with
  | some part => .ok part
  | none => .error (.missingRangePart name)

def rangeOf (json : Json) : Except TokenError NumericRange := do
  let low ← numeralOf (← rangePart "low" json)
  let high ← numeralOf (← rangePart "high" json)
  let label ← stringOf .ranges (← rangePart "label" json)
  .ok ⟨low, high, label⟩

def quantityOf {U : Type} [UnitFamily U] (kind : TokenKind) (value : Json) :
    Except TokenError (Quantity U) := do
  let text ← stringOf kind value
  (Quantity.parse text).mapError .unit

/-- The token of a kind other than properties with a given value. -/
def ofValue (kind : TokenKind) (value : Json) : Except TokenError Token :=
  match kind with
  | .identifier => (stringOf kind value).map .identifier
  | .directiveName => (stringOf kind value).map .directiveName
  | .columnName => (stringOf kind value).map .columnName
  | .columnNameList => (listOf kind (stringOf kind) value).map .columnNameList
  | .text => (stringOf kind value).map .text
  | .textList => (listOf kind (stringOf kind) value).map .textList
  | .numeric => (numeralOf value).map .numeric
  | .numericList => (listOf kind numeralOf value).map .numericList
  | .bool => (boolOf kind value).map .bool
  | .boolList => (listOf kind (boolOf kind) value).map .boolList
  | .properties => .error (.notObject kind)
  | .ranges => (listOf kind rangeOf value).map .ranges
  | .expression => (stringOf kind value).map .expression
  | .byteSize => (quantityOf kind value).map .byteSize
  | .timeDuration => (quantityOf kind value).map .timeDuration

mutual

/-- The token that an object stands for. Members other than its kind and value do not count. -/
def ofJson (json : Json) : Except TokenError Token :=
  match json.member? "type" with
  | some (.string name) =>
      match TokenKind.named? name with
      | none => .error (.unknownType name)
      | some kind =>
          match _h : json.member? "value" with
          | none => .error (.missingValue kind)
          | some value =>
              match kind, _hv : value with
              | .properties, .object members => (ofEntries members).map .properties
              | kind, value => ofValue kind value
  | _ => .error .missingType
termination_by sizeOf json
decreasing_by
  subst _hv
  have := Json.sizeOf_member? _h
  simp only [Json.object.sizeOf_spec] at this
  omega

def ofEntries : List (String × Json) → Except TokenError (List (String × Token))
  | [] => .ok []
  | (key, value) :: rest => do
      let token ← ofJson value
      let tokens ← ofEntries rest
      .ok ((key, token) :: tokens)
termination_by entries => sizeOf entries

end

end Token

end RowRecipe
