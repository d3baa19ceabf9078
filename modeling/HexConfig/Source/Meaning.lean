import HexConfig.Document
import HexConfig.Hex
import HexConfig.Integer
import HexConfig.Source

/-!
# What a source tree means

In two steps. `Program.expand?` writes every reference out: each `?[N]` becomes the value of the
latest constant `N` declared before it, whose own references are written out already. So a constant's
value may refer to an older constant of its own name, and a reference to a name that is declared only
later has no meaning. What is left has no references, and `Program.document?` gives it its meaning
declaration by declaration: a constant writes nothing, an entry writes its name, a block writes the
name that blocks without one get; a later write of a name replaces an earlier one, at the top and in
every object.

Both steps are partial. `none` comes of a reference to nothing, and of a number that has no digits or
that a signed 64-bit integer cannot hold, wherever they stand, in a constant that is never referred
to as much as in an entry.
-/

namespace HexConfig

/-! ## References written out -/

namespace Term

mutual

/-- A value with its references written out, by the constants known. -/
def expand? (known : Entries Term) : Term → Option Term
  | .number digits => some (.number digits)
  | .string s => some (.string s)
  | .array items => (expandItems? known items).map .array
  | .object entries => (expandEntries? known entries).map .object
  | .reference name => known.find? name
termination_by structural t => t

def expandItems? (known : Entries Term) : List Term → Option (List Term)
  | [] => some []
  | t :: ts => do return (← expand? known t) :: (← expandItems? known ts)
termination_by structural ts => ts

def expandEntries? (known : Entries Term) : List (String × Term) → Option (List (String × Term))
  | [] => some []
  | (k, t) :: es => do return (k, ← expand? known t) :: (← expandEntries? known es)
termination_by structural es => es

end

end Term

namespace Program

/-- Declarations with their references written out, by the constants known before them. -/
def expandFrom? (known : Entries Term) : Program → Option Program
  | [] => some []
  | .global name t :: rest => do
    let t ← t.expand? known
    return .global name t :: (← expandFrom? (known.write name t) rest)
  | .entry key t :: rest => do
    return .entry key (← t.expand? known) :: (← expandFrom? known rest)
  | .block entries :: rest => do
    return .block (← Term.expandEntries? known entries) :: (← expandFrom? known rest)

/-- A program with its references written out. -/
def expand? (p : Program) : Option Program := expandFrom? [] p

end Program

/-! ## Values -/

namespace Term

/-- The number that hexadecimal digits stand for, if there are digits and it fits. -/
def numberOf? (digits : String) : Option Int :=
  if digits = "" then none
  else if Hex.value digits.toList < Integer.signedBound then some (Hex.value digits.toList)
  else none

mutual

/-- The value of a term without references. -/
def value? : Term → Option Value
  | .number digits => (numberOf? digits).map .number
  | .string s => some (.ofString s)
  | .array items => (itemsOf? items).map .sequence
  | .object entries => (entriesOf? [] entries).map .mapping
  | .reference _ => none
termination_by structural t => t

/-- The values of an array's items. -/
def itemsOf? : List Term → Option (List Value)
  | [] => some []
  | t :: ts => do return (← value? t) :: (← itemsOf? ts)
termination_by structural ts => ts

/-- An object's entries, written one after the other over those before. -/
def entriesOf? (before : Entries Value) : List (String × Term) → Option (Entries Value)
  | [] => some before
  | (k, t) :: es => do entriesOf? (Entries.write k (← value? t) before) es
termination_by structural es => es

end

end Term

/-! ## Documents -/

/-- What a declaration without references writes. -/
def Declaration.write? (d : Document) : Declaration → Option Document
  | global _ t => t.value?.map fun _ => d
  | entry key t => t.value?.map (d.insert key)
  | block entries => (Term.object entries).value?.map (d.insert Document.unnamedKey)

namespace Program

/-- The document that declarations without references make. -/
def document? (p : Program) : Option Document :=
  p.foldlM Declaration.write? .empty

/-- What a program means. -/
def meaning? (p : Program) : Option Document := p.expand?.bind document?

end Program

end HexConfig
