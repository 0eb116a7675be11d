import RowRecipe.CommandLine.Execute
import RowRecipe.Json.Reader
import RowRecipe.Settings.Document.Fields

/-!
The program. It reads its arguments and the files they name, performs the command, and prints what the
command has printed.
-/

namespace RowRecipe.CommandLine

/-- The options of a command line, with what is no option. -/
structure Given where
  words : List String
  input : Option String
  settings : Option String
  batchSize : Option String

/-- Sorts the words of a command line into options and others; nothing if an option lacks its value. -/
def Given.ofArguments? : List String → Option Given
  | [] => some ⟨[], none, none, none⟩
  | option :: rest =>
      match option, rest with
      | "--config", value :: rest | "-c", value :: rest =>
          (ofArguments? rest).map fun g => { g with settings := some value }
      | "--input", value :: rest | "-i", value :: rest =>
          (ofArguments? rest).map fun g => { g with input := some value }
      | "--batch-size", value :: rest =>
          (ofArguments? rest).map fun g => { g with batchSize := some value }
      | word, rest =>
          if word.startsWith "-" then none
          else (ofArguments? rest).map fun g => { g with words := word :: g.words }

/-- The command that a command line writes. -/
def Command.ofArguments? (arguments : List String) : Option Command := do
  let g ← Given.ofArguments? arguments
  match g.words, g.input, g.settings, g.batchSize with
  | ["inspect", recipe], none, none, none => some (.inspect recipe)
  | ["validate", recipe], none, settings, none => some (.validate recipe settings)
  | ["run", recipe], some input, settings, none => some (.run recipe input settings none)
  | ["run", recipe], some input, settings, some size => do
      let size ← Text.unsigned64? size.toList
      some (.run recipe input settings (some size))
  | ["directives"], none, none, none => some .directives
  | _, _, _, _ => none

/-- The files that a command reads. -/
def Command.paths : Command → List String
  | .inspect recipe => [recipe]
  | .validate recipe settings => recipe :: settings.toList
  | .run recipe input settings _ => recipe :: input :: settings.toList
  | .directives => []

/-- The text of a file, or why there is none. -/
def readText (path : String) : IO (Except ReadError String) := do
  try
    return textOfBytes (← IO.FS.readBinFile path)
  catch
    | .noFileOrDirectory .. => return .error .missing
    | e => return .error (.system (toString e))

/-- Commands of the program have these readers, and as much room as addresses reach. -/
def Surroundings.ofFiles (files : Files) : Surroundings where
  files := files
  readJson := Json.read
  readFields := Settings.Document.readFields
  room := .ofAddresses

/-- What is shown to somebody whose command line writes no command. -/
def usageText : String :=
  "usage: inspect RECIPE | validate RECIPE [-c CONFIG] | " ++
    "run RECIPE -i INPUT [-c CONFIG] [--batch-size N] | directives"

/-- Executes the command that the arguments write, and gives the exit code. -/
def program (arguments : List String) : IO UInt32 := do
  match Command.ofArguments? arguments with
  | none =>
      IO.eprintln usageText
      return 2
  | some command =>
      let texts ← command.paths.mapM fun path => do return (path, ← readText path)
      let files : Files := fun path => (texts.lookup path).getD (.error .missing)
      let (outcome, record) := perform (.ofFiles files) command
      IO.print (joinLines record.printed)
      match outcome with
      | .ok () => return 0
      | .error .noRoom =>
          IO.eprintln Failure.noRoom.message
          return 101
      | .error failure =>
          IO.eprint (joinLines failure.details)
          IO.eprintln s!"error: {failure.message}"
          return 1

end RowRecipe.CommandLine

def main (arguments : List String) : IO UInt32 :=
  RowRecipe.CommandLine.program arguments
