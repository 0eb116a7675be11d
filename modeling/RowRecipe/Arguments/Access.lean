import RowRecipe.Arguments.Basic

/-!
Reading arguments by kind. Every reader succeeds on tokens of one kind and reports both kinds on all
others.
-/

namespace RowRecipe.Arguments

/-- Reads an argument with a function that is defined on tokens of one kind. -/
def typed {α : Type} (args : Arguments) (name : String) (expected : TokenKind)
    (pick : Token → Option α) : Except BindError α :=
  match args.value name with
  | .error e => .error e
  | .ok token =>
      match pick token with
      | some a => .ok a
      | none => .error (.typeMismatch args.directive name expected token.kind)

def column (args : Arguments) (name : String) : Except BindError String :=
  args.typed name .columnName fun | .columnName s => some s | _ => none

def columns (args : Arguments) (name : String) : Except BindError (List String) :=
  args.typed name .columnNameList fun | .columnNameList names => some names | _ => none

def text (args : Arguments) (name : String) : Except BindError String :=
  args.typed name .text fun | .text s => some s | _ => none

def texts (args : Arguments) (name : String) : Except BindError (List String) :=
  args.typed name .textList fun | .textList contents => some contents | _ => none

def numeric (args : Arguments) (name : String) : Except BindError Numeral :=
  args.typed name .numeric fun | .numeric n => some n | _ => none

def numerics (args : Arguments) (name : String) : Except BindError (List Numeral) :=
  args.typed name .numericList fun | .numericList ns => some ns | _ => none

def boolean (args : Arguments) (name : String) : Except BindError Bool :=
  args.typed name .bool fun | .bool b => some b | _ => none

def booleans (args : Arguments) (name : String) : Except BindError (List Bool) :=
  args.typed name .boolList fun | .boolList bs => some bs | _ => none

def identifier (args : Arguments) (name : String) : Except BindError String :=
  args.typed name .identifier fun | .identifier s => some s | _ => none

def expression (args : Arguments) (name : String) : Except BindError String :=
  args.typed name .expression fun | .expression body => some body | _ => none

def properties (args : Arguments) (name : String) : Except BindError (List (String × Token)) :=
  args.typed name .properties fun | .properties entries => some entries | _ => none

def ranges (args : Arguments) (name : String) : Except BindError (List NumericRange) :=
  args.typed name .ranges fun | .ranges rs => some rs | _ => none

def byteSize (args : Arguments) (name : String) : Except BindError ByteSize :=
  args.typed name .byteSize fun | .byteSize size => some size | _ => none

def timeDuration (args : Arguments) (name : String) : Except BindError TimeDuration :=
  args.typed name .timeDuration fun | .timeDuration duration => some duration | _ => none

end RowRecipe.Arguments
