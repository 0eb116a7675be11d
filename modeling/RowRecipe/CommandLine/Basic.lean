import RowRecipe.Pipeline.Batches
import RowRecipe.Settings.Basic

/-!
The commands of the program, what they rely on, and what can go wrong with them. Files are known by their
paths; what is read from them comes from outside, and so do the readers of JSON and of settings.
-/

namespace RowRecipe.CommandLine

inductive Command where
  /-- Shows the compiled form of a recipe. -/
  | inspect (recipe : String)
  /-- Opens the pipeline of a recipe and closes it again. -/
  | validate (recipe : String) (settings : Option String)
  /-- Passes rows through the pipeline of a recipe. A batch size given here goes before that of the
  settings. -/
  | run (recipe input : String) (settings : Option String) (batchSize : Option Nat)
  /-- Shows how the directives are used that every recipe can use. -/
  | directives

/-- Why a file has no text. -/
inductive ReadError where
  /-- The system does not give access to the file. -/
  | system (reason : String)
  /-- The bytes in the file are not UTF-8. -/
  | notText
deriving DecidableEq

def ReadError.message : ReadError → String
  | .system reason => reason
  | .notText => "stream did not contain valid UTF-8"

/-- There is no file of that path. -/
def ReadError.missing : ReadError := .system "No such file or directory (os error 2)"

/-- The text in a file of these bytes. -/
def textOfBytes (bytes : ByteArray) : Except ReadError String :=
  match String.fromUTF8? bytes with
  | some text => .ok text
  | none => .error .notText

/-- The texts of files by their paths. -/
abbrev Files := String → Except ReadError String

/-- What commands rely on. A reader that refuses a text says what is wrong with it. -/
structure Surroundings where
  files : Files
  readJson : String → Except String Json
  readFields : String → Except String Settings.Fields
  room : Room

/-- Why a line of input is no row. -/
inductive LineFault where
  | invalidJson (detail : String)
  | notARow (error : RowError)

def LineFault.message : LineFault → String
  | .invalidJson detail => s!"invalid JSON: {detail}"
  | .notARow e => e.message

/-- Why a command fails. -/
inductive Failure where
  | unreadable (path : String) (error : ReadError)
  | unreadableSettings (path : String) (error : ReadError)
  | malformedSettings (detail : String)
  /-- The settings can be read but not used. -/
  | unusableSettings (problems : List Settings.Problem)
  | zeroBatchSize
  /-- A line of input is no row. Lines count from one. -/
  | line (path : String) (number : Nat) (fault : LineFault)
  /-- The pipeline of a recipe cannot be opened. -/
  | recipe (path : String) (error : RecipeError)
  /-- There is no room for a batch. This is not told like the other failures: the program breaks off. -/
  | noRoom
  /-- A batch fails. -/
  | batch (error : DirectiveError)

namespace Failure

def message : Failure → String
  | .unreadable path e => s!"cannot read {path}: {e.message}"
  | .unreadableSettings path e => s!"failed to read {path}: {e.message}"
  | .malformedSettings detail => s!"YAML parse error: {detail}"
  | .unusableSettings problems => s!"{problems.length} config error(s)"
  | .zeroBatchSize => "--batch-size must be greater than 0"
  | .line path number fault => s!"{path}:{number}: {fault.message}"
  | .recipe path e => s!"{path}: {e.message}"
  | .noRoom => "capacity overflow"
  | .batch e => e.message

/-- What is reported before the message itself, line by line. -/
def details : Failure → List String
  | .unusableSettings problems => problems.map fun p => s!"  ERROR: {p.message}"
  | _ => []

end Failure

end RowRecipe.CommandLine
