import HexConfig.Settings

/-!
# Tallies

What a reader counts: the containers open around the place it has come to, the most that were open
while the latest constant was read, and the values written out so far.

Counting stops at `Limits.greatest` instead of running past it. Nothing is wound back when reading
stops at a fault: a reader that goes on from there goes on with the tally as it stood.
-/

namespace HexConfig

/-- A sum that stops at the greatest number a limit can be set to. -/
def sumUpTo (a b : Nat) : Nat := min (a + b) Limits.greatest

/-- What is counted while a text is read. -/
structure Tally where
  /-- The containers open now. -/
  depth : Nat
  /-- The most containers open at once since the latest constant was begun, those inside spliced
  constants among them. -/
  peak : Nat
  /-- The values written out. -/
  nodes : Nat
  deriving DecidableEq

namespace Tally

/-- Nothing counted yet. -/
def zero : Tally := ⟨0, 0, 0⟩

/-- One more container is open. -/
def enter (t : Tally) : Tally :=
  { t with depth := t.depth + 1, peak := max t.peak (t.depth + 1) }

/-- One container fewer is open. -/
def leave (t : Tally) : Tally := { t with depth := t.depth - 1 }

/-- The nesting that a value `depth` deep reaches here. -/
def reach (t : Tally) (depth : Nat) : Nat := sumUpTo t.depth depth

/-- A value `depth` deep is spliced in here. -/
def splice (t : Tally) (depth : Nat) : Tally := { t with peak := max t.peak (t.reach depth) }

/-- So many more values are written out. -/
def charge (t : Tally) (n : Nat) : Tally := { t with nodes := sumUpTo t.nodes n }

/-- A constant is begun: its own nesting is measured from here. -/
def beginConstant (t : Tally) : Tally := { t with peak := 0 }

/-- A constant is finished: what it wrote out is taken back, since only references to it count. -/
def endConstant (t : Tally) (before : Nat) : Tally := { t with nodes := before }

end Tally

end HexConfig
