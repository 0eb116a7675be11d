import RowRecipe.CommandLine.Basic

/-!
What commands read: settings, recipes, and rows, which are written as JSON objects, one on each line. Blank
lines are passed over but counted.
-/

namespace RowRecipe.CommandLine

variable (here : Surroundings)

/-- The text of a file that is not one of settings. -/
def read (path : String) : Except Failure String :=
  (here.files path).mapError (.unreadable path)

/-- The settings in a file, or the standard ones if there is no file. -/
def readSettings : Option String → Except Failure Settings
  | none => .ok .standard
  | some path => do
      let text ← (here.files path).mapError (.unreadableSettings path)
      (Settings.parse here.readFields text).mapError .malformedSettings

/-- The settings for a command, provided they can be used. -/
def loadSettings (path : Option String) : Except Failure Settings := do
  let settings ← readSettings here path
  match settings.problems with
  | [] => .ok settings
  | problems => .error (.unusableSettings problems)

/-- The size of batches: the one given with the command goes before that of the settings. -/
def chooseBatchSize (settings : Settings) : Option Nat → Except Failure Nat
  | none => .ok settings.batchSize
  | some 0 => .error .zeroBatchSize
  | some size => .ok size

/-- The lines of a text. A newline ends a line, and a carriage return in front of it belongs to the end.
Behind the last newline there is a line only if something stands there. -/
def lines : List Char → List (List Char)
  | [] => []
  | '\n' :: rest => [] :: lines rest
  | '\r' :: '\n' :: rest => [] :: lines rest
  | c :: rest =>
      match lines rest with
      | [] => [[c]]
      | line :: more => (c :: line) :: more

/-- The row that a line writes. -/
def rowOfLine (line : String) : Except LineFault Row :=
  match here.readJson line with
  | .error detail => .error (.invalidJson detail)
  | .ok json => (Row.ofJson json).mapError .notARow

/-- The rows of lines, the first of which has the given number; or the number of the first line that
is none, and why. -/
def rowsOfLines : Nat → List (List Char) → Except (Nat × LineFault) (List Row)
  | _, [] => .ok []
  | number, line :: rest =>
      if line.all Text.isBlank then rowsOfLines (number + 1) rest
      else
        match rowOfLine here (String.ofList line) with
        | .error fault => .error (number, fault)
        | .ok row => (rowsOfLines (number + 1) rest).map (row :: ·)

/-- The rows of a whole text. -/
def rowsOfText (text : String) : Except (Nat × LineFault) (List Row) :=
  rowsOfLines here 1 (lines text.toList)

/-- What a run needs: how it is set up, the text of its recipe, and the rows of its input. -/
structure Job where
  settings : Settings
  batchSize : Nat
  source : String
  rows : List Row

/-- The job of a run. All of it is read before the recipe is compiled. -/
def Job.read (recipe input : String) (settings : Option String) (batchSize : Option Nat) :
    Except Failure Job := do
  let settings ← loadSettings here settings
  let batchSize ← chooseBatchSize settings batchSize
  let source ← CommandLine.read here recipe
  let text ← CommandLine.read here input
  let rows ← (rowsOfText here text).mapError fun (number, fault) => .line input number fault
  .ok { settings, batchSize, source, rows }

end RowRecipe.CommandLine
