import HexConfig.Decimal
import HexConfig.Document
import HexConfig.Json.Quoted

/-!
# The structured view

The JSON value that a value stands for, and its compact text: no blanks, members in the order they
are held in, strings encoded. JSON has more than a document holds: `null`, and numbers with a
fraction or an exponent, which are kept as a whole number times a power of ten. Nothing here makes
one, but a reader of JSON text can meet them.
-/

namespace HexConfig

/-- A JSON value. -/
inductive Json where
  | null
  | boolean (b : Bool)
  /-- The number `mantissa * 10 ^ exponent`. -/
  | number (mantissa exponent : Int)
  | string (s : String)
  | array (items : List Json)
  | object (members : List (String × Json))

namespace Json

/-- A number: the whole part, and the power of ten if there is one. -/
def numeral (mantissa exponent : Int) : List Char :=
  Decimal.ofInt mantissa ++ if exponent = 0 then [] else 'e' :: Decimal.ofInt exponent

mutual

/-- The compact text of a JSON value. -/
def compact : Json → List Char
  | .null => "null".toList
  | .boolean b => (if b then "true" else "false").toList
  | .number m e => numeral m e
  | .string s => Quoting.encoded.quote s
  | .array items => '[' :: (compactItems items ++ [']'])
  | .object members => '{' :: (compactMembers members ++ ['}'])
termination_by structural j => j

/-- Items separated by commas. -/
def compactItems : List Json → List Char
  | [] => []
  | [j] => compact j
  | j :: k :: rest => compact j ++ ',' :: compactItems (k :: rest)
termination_by structural js => js

/-- Members separated by commas. -/
def compactMembers : List (String × Json) → List Char
  | [] => []
  | [(k, j)] => Quoting.encoded.quote k ++ ':' :: compact j
  | (k, j) :: m :: rest =>
    Quoting.encoded.quote k ++ ':' :: (compact j ++ ',' :: compactMembers (m :: rest))
termination_by structural ms => ms

end

/-- The compact text as a string. -/
def toText (j : Json) : String := String.ofList j.compact

end Json

namespace Value

mutual

/-- The JSON value that a value stands for. -/
def toJson : Value → Json
  | .number n => .number n 0
  | .text s => .string s
  | .boolean b => .boolean b
  | .sequence items => .array (toJsonItems items)
  | .mapping entries => .object (toJsonMembers entries)
termination_by structural v => v

def toJsonItems : List Value → List Json
  | [] => []
  | v :: vs => toJson v :: toJsonItems vs
termination_by structural vs => vs

def toJsonMembers : List (String × Value) → List (String × Json)
  | [] => []
  | (k, v) :: es => (k, toJson v) :: toJsonMembers es
termination_by structural es => es

end

end Value

/-- The JSON value that a document stands for. -/
def Document.toJson (d : Document) : Json := d.toValue.toJson

end HexConfig
