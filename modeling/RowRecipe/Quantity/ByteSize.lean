import RowRecipe.Quantity.Literal

/-!
Byte sizes. Each unit holds 1024 of the one below it.
-/

namespace RowRecipe

inductive ByteUnit where
  | b | kb | mb | gb | tb | pb | eb | zb | yb
deriving DecidableEq

namespace ByteUnit

def all : List ByteUnit := [.b, .kb, .mb, .gb, .tb, .pb, .eb, .zb, .yb]

def symbol : ByteUnit → String
  | .b => "B"
  | .kb => "KB"
  | .mb => "MB"
  | .gb => "GB"
  | .tb => "TB"
  | .pb => "PB"
  | .eb => "EB"
  | .zb => "ZB"
  | .yb => "YB"

def factor : ByteUnit → Nat
  | .b => 1
  | .kb => 1024
  | .mb => 1024 ^ 2
  | .gb => 1024 ^ 3
  | .tb => 1024 ^ 4
  | .pb => 1024 ^ 5
  | .eb => 1024 ^ 6
  | .zb => 1024 ^ 7
  | .yb => 1024 ^ 8

instance : UnitFamily ByteUnit where
  kind := "byte size"
  all := all
  base := .b
  symbol := symbol
  factor := factor

end ByteUnit

/-- A size such as `10KB`. -/
abbrev ByteSize := Quantity ByteUnit

/-- The size in bytes. -/
def ByteSize.bytes (size : ByteSize) : Nat := Quantity.count size

end RowRecipe
