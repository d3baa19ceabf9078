import HexConfig.Entries

/-!
# Values

What a document holds: numbers, texts, booleans, sequences of values, and mappings from names to
values. A mapping's entries are in the order of `HexConfig.Entries`, because every mapping is made
by writing its names one after the other.

A reference to a constant leaves no trace in a value: it stands for the constant's value, written out
as often as it is referred to. Two values are the same when they are written the same, which
`Value.same` decides.
-/

namespace HexConfig

/-- A value. -/
inductive Value where
  | number (n : Int)
  | text (s : String)
  | boolean (b : Bool)
  | sequence (items : List Value)
  | mapping (entries : List (String × Value))

namespace Value

/-- The name of a value's type, as messages give it. -/
def typeName : Value → String
  | .number _ => "number"
  | .text _ => "text"
  | .boolean _ => "boolean"
  | .sequence _ => "sequence"
  | .mapping _ => "mapping"

/-- The number, if the value is one. -/
def number? : Value → Option Int
  | .number n => some n
  | _ => none

/-- The text, if the value is one. -/
def text? : Value → Option String
  | .text s => some s
  | _ => none

/-- The boolean, if the value is one. -/
def boolean? : Value → Option Bool
  | .boolean b => some b
  | _ => none

/-- The items, if the value is a sequence. -/
def items? : Value → Option (List Value)
  | .sequence items => some items
  | _ => none

/-- The entries, if the value is a mapping. -/
def entries? : Value → Option (Entries Value)
  | .mapping entries => some entries
  | _ => none

/-- What a name stands for, if the value is a mapping that has it. -/
def get? (v : Value) (key : String) : Option Value :=
  v.entries?.bind (Entries.find? key)

/-- The value of a string: `true` and `false` are booleans, every other string is a text. -/
def ofString (s : String) : Value :=
  if s = "true" then .boolean true else if s = "false" then .boolean false else .text s

/-! ## Sameness -/

mutual

/-- Whether two values are written the same. -/
def same : Value → Value → Bool
  | .number n, .number m => n == m
  | .text s, .text t => s == t
  | .boolean b, .boolean c => b == c
  | .sequence vs, .sequence ws => sameItems vs ws
  | .mapping es, .mapping fs => sameEntries es fs
  | _, _ => false
termination_by structural v => v

def sameItems : List Value → List Value → Bool
  | [], [] => true
  | v :: vs, w :: ws => same v w && sameItems vs ws
  | _, _ => false
termination_by structural vs => vs

def sameEntries : List (String × Value) → List (String × Value) → Bool
  | [], [] => true
  | (k, v) :: es, (l, w) :: fs => k == l && same v w && sameEntries es fs
  | _, _ => false
termination_by structural es => es

end

mutual

/-- Values written the same are equal, and the other way round. -/
theorem same_iff : ∀ v w : Value, same v w = true ↔ v = w
  | .number n, w => by cases w <;> simp [same]
  | .text s, w => by cases w <;> simp [same]
  | .boolean b, w => by cases w <;> simp [same]
  | .sequence vs, w => by cases w <;> simp [same, sameItems_iff vs]
  | .mapping es, w => by cases w <;> simp [same, sameEntries_iff es]

theorem sameItems_iff : ∀ vs ws : List Value, sameItems vs ws = true ↔ vs = ws
  | [], ws => by cases ws <;> simp [sameItems]
  | v :: vs, ws => by cases ws <;> simp [sameItems, same_iff v, sameItems_iff vs]

theorem sameEntries_iff : ∀ es fs : List (String × Value), sameEntries es fs = true ↔ es = fs
  | [], fs => by cases fs <;> simp [sameEntries]
  | (k, v) :: es, fs => by
    rcases fs with _ | ⟨⟨l, w⟩, fs⟩ <;>
      simp [sameEntries, same_iff v, sameEntries_iff es, and_assoc]

end

instance : DecidableEq Value := fun v w => decidable_of_iff _ (same_iff v w)

end Value

end HexConfig
