import RowRecipe.CommandLine.Basic
import RowRecipe.Pipeline.Basic

/-!
Sessions: commands at work. A command prints texts, and things happen to the directives of its
pipeline. What has been printed and what has happened stays so if the command fails later on.
-/

namespace RowRecipe.CommandLine

/-- What a command has done. -/
structure Record where
  /-- The texts it has printed, with a newline after each. -/
  printed : List String
  /-- What has happened to the directives of its pipeline. -/
  trace : Trace

namespace Record

def empty : Record := ⟨[], []⟩

/-- The record after one more text. -/
def print (text : String) (r : Record) : Record := { r with printed := r.printed ++ [text] }

/-- The record after more has happened to the directives. -/
def note (trace : Trace) (r : Record) : Record := { r with trace := r.trace ++ trace }

end Record

/-- A part of a command that gives a value or fails. -/
abbrev Session := ExceptT Failure (StateM Record)

namespace Session

variable {α : Type}

def print (text : String) : Session Unit := modify (Record.print text)

def note (trace : Trace) : Session Unit := modify (Record.note trace)

/-- Takes the value of an outcome, or fails as it tells. -/
def settle {ε : Type} (failure : ε → Failure) (outcome : Except ε α) : Session α :=
  ExceptT.mk (pure (outcome.mapError failure))

/-- How a session ends when so much has been done before it, and all that has been done by then. -/
def conduct (r : Record) (s : Session α) : Except Failure α × Record := (s.run.run r).run

end Session

end RowRecipe.CommandLine
