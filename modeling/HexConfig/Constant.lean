import HexConfig.Value

/-!
# Constants

A constant is a value under a name, kept with two measures of how it was written: how deep its
containers nest and how many values it writes out, references included. With them a reference can be
checked against the limits in one step, without walking the value again.

Publishing a name again replaces what later references mean. Values handed out before are values:
nothing changes them.
-/

namespace HexConfig

/-- A value under a name, with the nesting and the number of values it was written with. -/
structure Constant where
  value : Value
  depth : Nat
  size : Nat
  deriving DecidableEq

/-- The constants known at a point of a text. -/
abbrev Constants := Entries Constant

end HexConfig
