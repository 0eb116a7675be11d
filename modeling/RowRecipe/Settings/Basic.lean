import RowRecipe.Text.Character

/-!
The settings of a run: the environment, the size of its batches, and the version that its recipe must
declare. A document may set each of them or leave it as it is; they are checked afterwards.
-/

namespace RowRecipe

inductive Environment where
  | production
  | testing
deriving DecidableEq

namespace Environment

def name : Environment → String
  | .production => "production"
  | .testing => "testing"

def named? (text : List Char) : Option Environment :=
  [production, testing].find? fun e => e.name.toList == text

end Environment

structure Settings where
  environment : Environment
  /-- How many rows a batch takes. -/
  batchSize : Nat
  /-- The version that a recipe must declare if it declares any. -/
  grammarVersion : Option String
deriving DecidableEq

namespace Settings

/-- The settings of a run that sets nothing. -/
def standard : Settings := ⟨.production, 1000, none⟩

/-- The standard settings in the testing environment. -/
def testing : Settings := { standard with environment := .testing }

/-- What a document sets. A version that is set to nothing is not set. -/
structure Fields where
  environment : Option Environment
  batchSize : Option Nat
  grammarVersion : Option String
deriving DecidableEq

/-- Nothing is set. -/
def Fields.none : Fields := ⟨.none, .none, .none⟩

/-- The settings of a run for which so much is set; all else is as in the standard settings. -/
def ofFields (f : Fields) : Settings where
  environment := f.environment.getD standard.environment
  batchSize := f.batchSize.getD standard.batchSize
  grammarVersion := f.grammarVersion

/-- The settings that a text writes, or why a reader of documents refuses it. The reader is not asked
about a text of nothing but white space, which sets nothing. -/
def parse (readFields : String → Except String Fields) (text : String) : Except String Settings :=
  if Text.isBlankText text then .ok standard else (readFields text).map ofFields

/-- What is wrong with settings that could be read. -/
inductive Problem where
  | zeroBatchSize
  | emptyGrammarVersion
deriving DecidableEq

def Problem.message : Problem → String
  | .zeroBatchSize => "batch_size must be greater than 0"
  | .emptyGrammarVersion => "grammar_version must not be empty when set"

/-- Everything that is wrong with settings; none of it in settings that can be used. -/
def problems (s : Settings) : List Problem :=
  (if s.batchSize = 0 then [.zeroBatchSize] else []) ++
    (if s.grammarVersion.any Text.isBlankText then [.emptyGrammarVersion] else [])

end Settings

end RowRecipe
