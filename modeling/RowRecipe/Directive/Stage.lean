import RowRecipe.Directive.Basic

/-!
Stages: directives at work. A stage is one occurrence of a directive in a recipe with the state that it
has reached. A destroyed stage does nothing any more, and no stage is destroyed twice. Every operation
reports the events in the life of the directive that it has brought about.
-/

namespace RowRecipe

/-- What happens to a directive in its life. -/
inductive Event where
  | created
  | prepared (succeeded : Bool)
  | executed
  | destroyed
  /-- The directive has left a line for those who watch. -/
  | noted (line : String)
deriving DecidableEq

structure Stage where
  name : String
  span : Span
  directive : Directive
  state : directive.State
  isDestroyed : Bool

namespace Stage

/-- A stage for a directive that is not prepared yet. -/
def ofDirective (name : String) (span : Span) (directive : Directive) : Stage :=
  ⟨name, span, directive, directive.start, false⟩

def usage (s : Stage) : Usage := s.directive.usage

/-- What is said of a stage that is used after it was destroyed. -/
def destroyedMessage : String := "directive has already been destroyed"

/-- Hands the directive its arguments. -/
def prepare (args : Arguments) (s : Stage) : Except DirectiveError Unit × Stage × List Event :=
  if s.isDestroyed then (.error (.initialization s.name destroyedMessage), s, [])
  else
    let p := s.directive.prepare args s.state
    (p.outcome, { s with state := p.state }, .prepared p.outcome.isOk :: p.notes.map .noted)

/-- Hands the directive a batch, as the one at a position of the recipe. -/
def execute (owner : Nat) (rows : List Row) (context : Context) (s : Stage) :
    Except DirectiveError (List Row) × Stage × Context × List Event :=
  if s.isDestroyed then (.error (.execution s.name "" destroyedMessage), s, context, [])
  else
    let e := s.directive.execute rows ⟨context, owner⟩ s.state
    (e.outcome, { s with state := e.state }, context.writeAll owner e.writes,
      .executed :: e.notes.map .noted)

/-- Destroys the directive unless that has been done. -/
def close (s : Stage) : Stage × List Event :=
  if s.isDestroyed then (s, [])
  else ({ s with isDestroyed := true }, .destroyed :: (s.directive.destroy s.state).map .noted)

end Stage

end RowRecipe
