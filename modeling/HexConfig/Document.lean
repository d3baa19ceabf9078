import HexConfig.Value

/-!
# Documents

A document is a mapping from names to values that stands by itself: what a whole source text means.
The order of its names is part of its type, so a document made in any order of writing is printed in
one.
-/

namespace HexConfig

/-- What a source text means: names with their values, in order. -/
structure Document where
  entries : Entries Value
  sorted : entries.Sorted
  deriving DecidableEq

namespace Document

/-- The document with nothing in it. -/
def empty : Document := ⟨[], Entries.sorted_nil⟩

/-- Writes a name, over what it stood for if it was there. -/
def insert (d : Document) (key : String) (v : Value) : Document :=
  ⟨d.entries.write key v, d.sorted.write⟩

/-- What a name stands for. -/
def get? (d : Document) (key : String) : Option Value :=
  d.entries.find? key

/-- How many names there are. -/
def size (d : Document) : Nat := d.entries.length

/-- The names, in order. -/
def keys (d : Document) : List String := d.entries.keys

/-- The name a block gets that stands at the top level without one. -/
def unnamedKey : String := "unnamed"

/-- The document as a value. -/
def toValue (d : Document) : Value := .mapping d.entries

@[simp]
theorem get?_empty (key : String) : empty.get? key = none := rfl

/-- The last write of a name stands. -/
theorem get?_insert (d : Document) (key other : String) (v : Value) :
    (d.insert key v).get? other = if key = other then some v else d.get? other :=
  Entries.find?_write key other v d.entries

end Document

end HexConfig
