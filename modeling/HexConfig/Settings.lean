/-!
# Settings

Two limits keep a small text from asking for a huge document, and one switch says how strings are
printed.
-/

namespace HexConfig

/-- What a document may ask for: how many containers are open at once, and how many values are
written out with every reference expanded. -/
structure Limits where
  maxDepth : Nat
  maxNodes : Nat
  deriving DecidableEq

namespace Limits

/-- The greatest number that a limit can be set to, and at which counting stops: the greatest
unsigned 64-bit integer. -/
def greatest : Nat := 18446744073709551615

/-- The limits in force where none are set. -/
def standard : Limits := ⟨256, 1000000⟩

end Limits

/-- How a text is converted. -/
structure Settings extends Limits where
  /-- Strings are encoded as JSON asks, and not copied as they are. -/
  escapeStrings : Bool
  deriving DecidableEq

/-- The settings in force where none are made. -/
def Settings.standard : Settings := ⟨Limits.standard, false⟩

end HexConfig
