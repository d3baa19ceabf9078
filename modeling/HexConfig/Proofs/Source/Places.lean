import HexConfig.Diagnostic
import HexConfig.Proofs.Source.Resolution
import HexConfig.Settings

/-!
# Where a value is written

A place for a value, by what is written before it: the declarations that are complete, and of the one that
the value belongs to, what opens it and the containers around the value, each with the items or entries in
it so far (`Place`). What is written before a value tells all that is checked where it starts: the constants
there are, how many containers are open, and how many values are written so far. `Place.Offends` says what
is wrong with a value by these and by the tokens it starts with.

Nothing here speaks of a reader. The counts are those of what is written, its references written out, and
nothing is said of what comes behind the value.
-/

namespace HexConfig

/-- A token of this kind is the first of a value, wherever it may stand at all. -/
def Token.Kind.BeginsValue (k : Token.Kind) : Prop :=
  k ∈ [number, text, hash, question, leftBrace]

instance (k : Token.Kind) : Decidable k.BeginsValue :=
  inferInstanceAs (Decidable (k ∈ _))

/-! ## Openings -/

/-- What is written of a declaration before one of its values. -/
inductive Opening where
  /-- The value of a constant. -/
  | global (name : String)
  /-- The value of an entry at the top level. -/
  | entry (key : String)
  /-- A block that stands by itself. -/
  | block
  /-- An item of the array that stands at `outer`, behind the items `before`. -/
  | item (outer : Opening) (before : List Term)
  /-- The value for `key` in the object that stands at `outer`, behind the entries `before`. -/
  | field (outer : Opening) (before : List (String × Term)) (key : String)

namespace Opening

/-- The words of an opening. -/
def words : Opening → List Word
  | global name => [(.global, "global"), (.identifier, name), (.equals, "=")]
  | entry key => [(.identifier, key), (.equals, "=")]
  | block => []
  | item outer before =>
    outer.words ++ (.hash, "#") :: (.leftParen, "(") :: Term.wordsOfItems before
  | field outer before key =>
    outer.words ++ (.leftBrace, "\x7b") :: (Term.wordsOfEntries before ++ [(.identifier, key), (.equals, "=")])

/-- How many containers are open. -/
def depth : Opening → Nat
  | global _ => 0
  | entry _ => 0
  | block => 0
  | item outer _ => outer.depth + 1
  | field outer _ _ => outer.depth + 1

/-- How many values an opening without references writes, the open containers among them. -/
def cost : Opening → Nat
  | global _ => 0
  | entry _ => 0
  | block => 0
  | item outer before => outer.cost + 1 + Term.costOfItems before
  | field outer before _ => outer.cost + 1 + Term.costOfEntries before

/-- An opening with its references written out. -/
def expand? (known : Entries Term) : Opening → Option Opening
  | global name => some (global name)
  | entry key => some (entry key)
  | block => some block
  | item outer before => do return item (← outer.expand? known) (← Term.expandItems? known before)
  | field outer before key => do
    return field (← outer.expand? known) (← Term.expandEntries? known before) key

/-- The kinds of the tokens that a value starts with there: without a name, only an object. -/
def Admits : Opening → Token.Kind → Prop
  | block, k => k = .leftBrace
  | _, k => k.BeginsValue

variable {known : Entries Term} {outer o : Opening} {before : List Term}
  {entries : List (String × Term)} {key : String}

/-- A place in an array is written out by what is around the array and the items before it. -/
theorem expand?_item (ho : outer.expand? known = some o) {us : List Term}
    (hus : Term.expandItems? known before = some us) :
    (item outer before).expand? known = some (item o us) := by
  rw [expand?, ho, hus]
  rfl

/-- A place in an object is written out by what is around the object and the entries before it. -/
theorem expand?_field (ho : outer.expand? known = some o) {us : List (String × Term)}
    (hus : Term.expandEntries? known entries = some us) (key : String) :
    (field outer entries key).expand? known = some (field o us key) := by
  rw [expand?, ho, hus]
  rfl

/-- Whatever begins a value is admitted anywhere but in place of a declaration. -/
theorem admits_of_ne_block {k : Token.Kind} (ho : o ≠ block) (hk : k.BeginsValue) : o.Admits k := by
  cases o with
  | block => exact absurd rfl ho
  | _ => exact hk

/-- Nothing is admitted but what begins a value. -/
theorem Admits.beginsValue {k : Token.Kind} (h : o.Admits k) : k.BeginsValue := by
  cases o with
  | block =>
    obtain rfl : k = .leftBrace := h
    decide
  | _ => exact h

end Opening

/-! ## Places -/

/-- A place for a value. -/
structure Place where
  /-- The declarations that are complete. -/
  before : Program
  /-- What is written of the declaration that the value belongs to. -/
  opening : Opening

namespace Place

/-- All the words before the value. -/
def words (pl : Place) : List Word := pl.before.words ++ pl.opening.words

/-- In this row of tokens, a value starts at the place, and `row` is the rest of the row from there. -/
def Starts (pl : Place) (tokens row : List Token) : Prop :=
  ∃ used t rest, tokens = used ++ row ∧ used.map Token.word = pl.words ∧
    row = t :: rest ∧ pl.opening.Admits t.kind

/-- What starts at a place begins a value. -/
theorem Starts.beginsValue {pl : Place} {tokens rest : List Token} {t : Token}
    (h : pl.Starts tokens (t :: rest)) : t.kind.BeginsValue := by
  obtain ⟨_, _, _, -, -, hrow, hkind⟩ := h
  obtain ⟨rfl, -⟩ := List.cons.inj hrow
  exact hkind.beginsValue

/-- The constants there are, written out. -/
def known? (pl : Place) : Option (Entries Term) := pl.before.expand?.map (Program.declared [])

/-- How many values are written before the place, with references written out: those of the entries and
blocks that are complete, what was overwritten among them, and those of the declaration that is not. A
constant counts only as long as it is not complete. -/
def count? (pl : Place) : Option Nat := do
  let q ← pl.before.expand?
  let o ← pl.opening.expand? (Program.declared [] q)
  return q.lasting + o.cost

end Place

/-! ## What a value starts with -/

/-- The row starts with what opens a container: the mark and the parenthesis of an array, or the brace of an
object. -/
inductive Opens : List Token → Prop
  | array {hash paren : Token} {rest : List Token} : hash.kind = .hash → paren.kind = .leftParen →
      Opens (hash :: paren :: rest)
  | object {brace : Token} {rest : List Token} : brace.kind = .leftBrace → Opens (brace :: rest)

/-- The row starts with a complete reference, to the name that the token `name` carries. -/
inductive Refers : List Token → Token → Prop
  | intro {question bracket name last : Token} {rest : List Token} : question.kind = .question →
      bracket.kind = .leftBracket → name.kind = .identifier → last.kind = .rightBracket →
      Refers (question :: bracket :: name :: last :: rest) name

namespace Place

/-- What is counted where a value starts: one, and for a reference all that the constant writes. -/
inductive Adds (pl : Place) : List Token → Nat → Prop
  | number {t : Token} {rest : List Token} : t.kind = .number → Adds pl (t :: rest) 1
  | text {t : Token} {rest : List Token} : t.kind = .text → Adds pl (t :: rest) 1
  | container {row : List Token} : Opens row → Adds pl row 1
  | reference {row : List Token} {name : Token} {known : Entries Term} {u : Term} : Refers row name →
      pl.known? = some known → known.find? name.text = some u → Adds pl row u.cost

/-- What is wrong with a value that starts at the place, `row` being the tokens from there. A sum is held
against a limit only up to the greatest number, where counting stops. -/
inductive Offends (limits : Limits) (pl : Place) : List Token → Diagnostic → Prop
  /-- A reference to a name that no constant before has. -/
  | unknownConstant {row : List Token} {name : Token} : Refers row name →
      (∀ x, Declaration.global name.text x ∉ pl.before) →
      Offends limits pl row ⟨.unknownConstant name.text, name.position⟩
  /-- A number that is too large. -/
  | numericOverflow {t : Token} {rest : List Token} : t.kind = .number →
      Integer.signedBound ≤ Hex.value t.text.toList →
      Offends limits pl (t :: rest) ⟨.numericOverflow t.text, t.position⟩
  /-- A number without digits. -/
  | invalidNumber {t : Token} {rest : List Token} : t.kind = .number → t.text = "" →
      Offends limits pl (t :: rest) ⟨.invalidNumber, t.position⟩
  /-- A container that is one too many around what is in it. -/
  | opensTooDeep {t : Token} {rest : List Token} : Opens (t :: rest) →
      limits.maxDepth < pl.opening.depth + 1 →
      Offends limits pl (t :: rest) ⟨.nestingTooDeep limits.maxDepth, t.position⟩
  /-- A reference to a constant that nests too deep for the place. -/
  | refersTooDeep {t name : Token} {rest : List Token} {known : Entries Term} {u : Term} :
      Refers (t :: rest) name → pl.known? = some known → known.find? name.text = some u →
      limits.maxDepth < pl.opening.depth + u.nest → limits.maxDepth < Limits.greatest →
      Offends limits pl (t :: rest) ⟨.nestingTooDeep limits.maxDepth, t.position⟩
  /-- A value that is one too many, or a reference that writes too many. -/
  | tooManyNodes {t : Token} {rest : List Token} {count cost : Nat} : pl.Adds (t :: rest) cost →
      pl.count? = some count → limits.maxNodes < count + cost → limits.maxNodes < Limits.greatest →
      Offends limits pl (t :: rest) ⟨.tooManyNodes limits.maxNodes, t.position⟩

/-- A value passes all that is checked where it starts: what is written before it can be written out in full,
so that there is something to check it by, and nothing is wrong with it. -/
structure Passes (limits : Limits) (pl : Place) (row : List Token) : Prop where
  known : ∃ known, pl.known? = some known
  count : ∃ count, pl.count? = some count
  sound : ∀ d, ¬ pl.Offends limits row d

variable {limits : Limits} {pl : Place} {row : List Token} {d : Diagnostic}

/-- What is wrong with a value is told of at one of its tokens. -/
theorem Offends.exists_mem (h : pl.Offends limits row d) : ∃ t ∈ row, t.position = d.position := by
  cases h with
  | unknownConstant hrefers _ =>
    cases hrefers
    exact ⟨_, List.mem_cons_of_mem _ (List.mem_cons_of_mem _ List.mem_cons_self), rfl⟩
  | _ => exact ⟨_, List.mem_cons_self, rfl⟩

end Place

/-! ## Constants there are -/

/-- The constants known behind a program are those known before it and those it declares. -/
theorem Program.exists_find?_declared_iff {known : Entries Term} {p q : Program}
    (h : expandFrom? known p = some q) (name : String) :
    (∃ u, (declared known q).find? name = some u) ↔
      (∃ u, known.find? name = some u) ∨ ∃ x, Declaration.global name x ∈ p := by
  induction p generalizing known q with
  | nil =>
    cases h
    simp [declared]
  | cons d p ih =>
    obtain ⟨e, q, he, hq, rfl⟩ := expandFrom?_cons_eq_some.mp h
    show (∃ u, (declared (e.declared known) q).find? name = some u) ↔ _
    rw [ih hq, Declaration.exists_find?_declared_iff he]
    simp only [List.mem_cons, exists_or, or_assoc]

/-- A name is known at a place exactly if a constant of that name is declared before it. -/
theorem Place.exists_find?_iff {pl : Place} {known : Entries Term} (h : pl.known? = some known)
    (name : String) :
    (∃ u, known.find? name = some u) ↔ ∃ x, Declaration.global name x ∈ pl.before := by
  obtain ⟨q, hq, rfl⟩ := Option.map_eq_some_iff.mp h
  rw [Program.exists_find?_declared_iff hq]
  simp

end HexConfig
