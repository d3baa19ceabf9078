import HexConfig.Decimal
import HexConfig.Document
import HexConfig.Json.Quoted

/-!
# The layout of printed documents

A sequence stays on one line, its items separated by a comma and a space. A mapping that holds
something puts each entry on a line of its own, two spaces further in than the line it is opened on;
one that holds nothing is a pair of braces.

Indentation restarts inside a sequence: a mapping among its items is laid out as if it stood at the
margin, however deep the sequence itself stands. So `indent` counts the mappings open since the
innermost open sequence, and not all of them.
-/

namespace HexConfig

/-- The blanks in front of a line. -/
def margin (indent : Nat) : List Char := List.replicate (2 * indent) ' '

namespace Value

mutual

/-- The text of a value that is opened on a line `indent` steps in. -/
def layout (q : Quoting) (indent : Nat) : Value → List Char
  | .number n => Decimal.ofInt n
  | .text s => q.quote s
  | .boolean b => (if b then "true" else "false").toList
  | .sequence items => '[' :: (layoutItems q items ++ [']'])
  | .mapping [] => ['{', '}']
  | .mapping (e :: es) =>
    '{' :: '\n' :: (layoutEntries q (indent + 1) (e :: es) ++ '\n' :: (margin indent ++ ['}']))
termination_by structural v => v

/-- Items on one line. -/
def layoutItems (q : Quoting) : List Value → List Char
  | [] => []
  | [v] => layout q 0 v
  | v :: w :: rest => layout q 0 v ++ ',' :: ' ' :: layoutItems q (w :: rest)
termination_by structural vs => vs

/-- Entries on lines of their own. -/
def layoutEntries (q : Quoting) (indent : Nat) : List (String × Value) → List Char
  | [] => []
  | [(k, v)] => margin indent ++ (q.quote k ++ ':' :: ' ' :: layout q indent v)
  | (k, v) :: e :: rest =>
    margin indent ++ (q.quote k ++ ':' :: ' ' ::
      (layout q indent v ++ ',' :: '\n' :: layoutEntries q indent (e :: rest)))
termination_by structural es => es

end

/-! ## Printing in one pass

`layout` puts texts behind one another, and copies a text once for every container around it.
`layoutOnto` writes the same text in front of what comes after it, and copies nothing;
`layoutOnto_eq` says that it is the same text. -/

mutual

/-- The text of a value, with `rest` behind it. -/
def layoutOnto (q : Quoting) (indent : Nat) (rest : List Char) : Value → List Char
  | .number n => Decimal.ofInt n ++ rest
  | .text s => q.quote s ++ rest
  | .boolean b => (if b then "true" else "false").toList ++ rest
  | .sequence items => '[' :: layoutItemsOnto q (']' :: rest) items
  | .mapping [] => '{' :: '}' :: rest
  | .mapping (e :: es) =>
    '{' :: '\n' :: layoutEntriesOnto q (indent + 1) ('\n' :: (margin indent ++ '}' :: rest)) (e :: es)
termination_by structural v => v

/-- Items on one line, with `rest` behind them. -/
def layoutItemsOnto (q : Quoting) (rest : List Char) : List Value → List Char
  | [] => rest
  | [v] => layoutOnto q 0 rest v
  | v :: w :: more => layoutOnto q 0 (',' :: ' ' :: layoutItemsOnto q rest (w :: more)) v
termination_by structural vs => vs

/-- Entries on lines of their own, with `rest` behind them. -/
def layoutEntriesOnto (q : Quoting) (indent : Nat) (rest : List Char) :
    List (String × Value) → List Char
  | [] => rest
  | [(k, v)] => margin indent ++ (q.quote k ++ ':' :: ' ' :: layoutOnto q indent rest v)
  | (k, v) :: e :: more =>
    margin indent ++ (q.quote k ++ ':' :: ' ' ::
      layoutOnto q indent (',' :: '\n' :: layoutEntriesOnto q indent rest (e :: more)) v)
termination_by structural es => es

end

mutual

theorem layoutOnto_eq (q : Quoting) (indent : Nat) (rest : List Char) :
    ∀ v : Value, layoutOnto q indent rest v = layout q indent v ++ rest
  | .number _ => rfl
  | .text _ => rfl
  | .boolean _ => rfl
  | .sequence items => by
    simp [layoutOnto, layout, layoutItemsOnto_eq q (']' :: rest) items]
  | .mapping [] => rfl
  | .mapping (e :: es) => by
    simp [layoutOnto, layout, layoutEntriesOnto_eq q (indent + 1) _ (e :: es)]

theorem layoutItemsOnto_eq (q : Quoting) (rest : List Char) :
    ∀ vs : List Value, layoutItemsOnto q rest vs = layoutItems q vs ++ rest
  | [] => rfl
  | [v] => by simp [layoutItemsOnto, layoutItems, layoutOnto_eq q 0 rest v]
  | v :: w :: more => by
    simp [layoutItemsOnto, layoutItems, layoutOnto_eq q 0 _ v,
      layoutItemsOnto_eq q rest (w :: more)]

theorem layoutEntriesOnto_eq (q : Quoting) (indent : Nat) (rest : List Char) :
    ∀ es : List (String × Value),
      layoutEntriesOnto q indent rest es = layoutEntries q indent es ++ rest
  | [] => rfl
  | [(k, v)] => by simp [layoutEntriesOnto, layoutEntries, layoutOnto_eq q indent rest v]
  | (k, v) :: e :: more => by
    simp [layoutEntriesOnto, layoutEntries, layoutOnto_eq q indent _ v,
      layoutEntriesOnto_eq q indent rest (e :: more)]

end

/-- The printed text of a value at the margin. -/
def print (q : Quoting) (v : Value) : String := String.ofList (layoutOnto q 0 [] v)

/-- What is printed is the layout. -/
theorem print_eq (q : Quoting) (v : Value) : v.print q = String.ofList (v.layout q 0) := by
  rw [print, layoutOnto_eq, List.append_nil]

end Value

/-- The printed text of a document. -/
def Document.print (q : Quoting) (d : Document) : String := d.toValue.print q

end HexConfig
