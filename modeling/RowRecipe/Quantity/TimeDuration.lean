import RowRecipe.Quantity.Literal

/-!
Durations, counted in nanoseconds.
-/

namespace RowRecipe

inductive TimeUnit where
  | nanoseconds | milliseconds | seconds | minutes | hours | days
deriving DecidableEq

namespace TimeUnit

def all : List TimeUnit := [.nanoseconds, .milliseconds, .seconds, .minutes, .hours, .days]

def symbol : TimeUnit → String
  | .nanoseconds => "ns"
  | .milliseconds => "ms"
  | .seconds => "s"
  | .minutes => "m"
  | .hours => "h"
  | .days => "d"

/-- The name written out. -/
def longName : TimeUnit → String
  | .nanoseconds => "nanoseconds"
  | .milliseconds => "milliseconds"
  | .seconds => "seconds"
  | .minutes => "minutes"
  | .hours => "hours"
  | .days => "days"

/-- Nanoseconds in one unit. -/
def factor : TimeUnit → Nat
  | .nanoseconds => 1
  | .milliseconds => 1000000
  | .seconds => 1000000000
  | .minutes => 60 * 1000000000
  | .hours => 60 * 60 * 1000000000
  | .days => 24 * 60 * 60 * 1000000000

instance : UnitFamily TimeUnit where
  kind := "time duration"
  all := all
  base := .nanoseconds
  symbol := symbol
  factor := factor

/-- The unit of a given symbol or long name, in any ASCII case. -/
def ofAnyName? (name : String) : Option TimeUnit :=
  let trimmed := Text.trim name.toList
  all.find? fun u =>
    Text.sameIgnoringCase u.symbol.toList trimmed ||
      Text.sameIgnoringCase u.longName.toList trimmed

end TimeUnit

/-- A duration such as `50ms`. -/
abbrev TimeDuration := Quantity TimeUnit

namespace TimeDuration

/-- The whole nanoseconds of a duration. -/
def nanos (d : TimeDuration) : Nat := Quantity.count d

def millis (d : TimeDuration) : Nat := d.nanos / TimeUnit.milliseconds.factor

def seconds (d : TimeDuration) : Nat := d.nanos / TimeUnit.seconds.factor

def ofMillis (n : Nat) : TimeDuration := Quantity.ofValue (Binary64.ofNat n) .milliseconds

/-- The duration as whole seconds and the nanoseconds past them. -/
def split (d : TimeDuration) : Nat × Nat :=
  (d.seconds, d.nanos % TimeUnit.seconds.factor)

end TimeDuration

end RowRecipe
