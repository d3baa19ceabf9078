import HexConfig.Json

/-!
# Reading JSON text

A reader for the texts that are printed here, by the grammar of RFC 8259: blanks around every mark,
numbers with fraction and exponent, every escape of a string. It reads either kind of quoting. With
`Quoting.encoded` it reads JSON; with `Quoting.verbatim` a string is a quote, any characters but a
quote, each standing for itself, and a quote, and all else is JSON.

The members of an object are kept in the order they are written in, a name perhaps more than once.
A text that names a lone surrogate is refused, since no string can hold it.

The reader is structural on a number that bounds the marks still to be met; `parse?` starts it with
one that the length of the text cannot exhaust.
-/

namespace HexConfig.Json

/-- The blanks of JSON. -/
def isBlank (c : Char) : Bool := c = ' ' || c = '\t' || c = '\n' || c = '\r'

/-- What follows the blanks ahead. -/
def skipBlanks (cs : List Char) : List Char := cs.dropWhile isBlank

/-! ## Strings -/

/-- The number that four hexadecimal digits stand for. -/
def unit? (a b c d : Char) : Option Nat :=
  if [a, b, c, d].all Hex.isDigit then some (Hex.value [a, b, c, d]) else none

/-- Whether a UTF-16 unit is the first of a pair. -/
def isHighSurrogate (n : Nat) : Bool := 0xd800 ≤ n && n < 0xdc00

/-- Whether a UTF-16 unit is the second of a pair. -/
def isLowSurrogate (n : Nat) : Bool := 0xdc00 ≤ n && n < 0xe000

/-- The character that an escape of one letter stands for. -/
def escaped? : Char → Option Char
  | '"' => some '"'
  | '\\' => some '\\'
  | '/' => some '/'
  | 'b' => some '\x08'
  | 'f' => some '\x0c'
  | 'n' => some '\n'
  | 'r' => some '\r'
  | 't' => some '\t'
  | _ => none

/-- The text of an encoded string, after its opening quote, and what follows its closing quote. -/
def encodedString? : List Char → Option (List Char × List Char)
  | [] => none
  | '"' :: cs => some ([], cs)
  | '\\' :: 'u' :: a :: b :: c :: d :: '\\' :: 'u' :: e :: f :: g :: h :: cs => do
    let n ← unit? a b c d
    if isHighSurrogate n then
      let m ← unit? e f g h
      if isLowSurrogate m then
        let (s, rest) ← encodedString? cs
        return (Char.ofNat (0x10000 + 0x400 * (n - 0xd800) + (m - 0xdc00)) :: s, rest)
      else none
    else if isLowSurrogate n then none
    else
      let (s, rest) ← encodedString? ('\\' :: 'u' :: e :: f :: g :: h :: cs)
      return (Char.ofNat n :: s, rest)
  | '\\' :: 'u' :: a :: b :: c :: d :: cs => do
    let n ← unit? a b c d
    if isHighSurrogate n || isLowSurrogate n then none
    else
      let (s, rest) ← encodedString? cs
      return (Char.ofNat n :: s, rest)
  | '\\' :: e :: cs => do
    let c ← escaped? e
    let (s, rest) ← encodedString? cs
    return (c :: s, rest)
  | c :: cs =>
    if c = '\\' ∨ c.toNat < 0x20 then none
    else (encodedString? cs).map fun (s, rest) => (c :: s, rest)

/-- The text of a verbatim string, after its opening quote, and what follows its closing quote. -/
def verbatimString? (cs : List Char) : Option (List Char × List Char) :=
  match cs.dropWhile (· != '"') with
  | [] => none
  | _ :: rest => some (cs.takeWhile (· != '"'), rest)

/-- The text of a string, after its opening quote, and what follows its closing quote. -/
def string? : Quoting → List Char → Option (List Char × List Char)
  | .encoded, cs => encodedString? cs
  | .verbatim, cs => verbatimString? cs

/-! ## Numbers -/

/-- The digits ahead, at least one of them. -/
def digits? (cs : List Char) : Option (List Char × List Char) :=
  if (cs.takeWhile Char.isDigit).isEmpty then none
  else some (cs.takeWhile Char.isDigit, cs.dropWhile Char.isDigit)

/-- The digits of a whole part: one, or more of which the first is not zero. -/
def whole? (cs : List Char) : Option (List Char × List Char) := do
  let (ds, rest) ← digits? cs
  if ds.head? = some '0' ∧ ds.length ≠ 1 then none else some (ds, rest)

/-- The digits of a fraction; none if there is no point. -/
def fraction? : List Char → Option (List Char × List Char)
  | '.' :: cs => digits? cs
  | cs => some ([], cs)

/-- The power of ten of an exponent; zero if there is none. -/
def exponent? : List Char → Option (Int × List Char)
  | 'e' :: '+' :: cs | 'E' :: '+' :: cs =>
    (digits? cs).map fun (ds, rest) => ((Decimal.value ds : Int), rest)
  | 'e' :: '-' :: cs | 'E' :: '-' :: cs =>
    (digits? cs).map fun (ds, rest) => (-(Decimal.value ds : Int), rest)
  | 'e' :: cs | 'E' :: cs =>
    (digits? cs).map fun (ds, rest) => ((Decimal.value ds : Int), rest)
  | cs => some (0, cs)

/-- A number after its sign, which is part of `sign`. -/
def magnitude? (sign : Int) (cs : List Char) : Option (Json × List Char) := do
  let (ds, rest) ← whole? cs
  let (fs, rest) ← fraction? rest
  let (e, rest) ← exponent? rest
  return (.number (sign * Decimal.value (ds ++ fs)) (e - fs.length), rest)

/-- A number. -/
def number? : List Char → Option (Json × List Char)
  | '-' :: cs => magnitude? (-1) cs
  | cs => magnitude? 1 cs

/-! ## Values -/

mutual

/-- A value, blanks in front of it or not, and what follows it. -/
def value? (q : Quoting) : Nat → List Char → Option (Json × List Char)
  | 0, _ => none
  | fuel + 1, cs =>
    match skipBlanks cs with
    | 'n' :: 'u' :: 'l' :: 'l' :: cs => some (.null, cs)
    | 't' :: 'r' :: 'u' :: 'e' :: cs => some (.boolean true, cs)
    | 'f' :: 'a' :: 'l' :: 's' :: 'e' :: cs => some (.boolean false, cs)
    | '"' :: cs => (string? q cs).map fun (s, rest) => (.string (String.ofList s), rest)
    | '[' :: cs =>
      match skipBlanks cs with
      | ']' :: cs => some (.array [], cs)
      | cs => (items? q fuel cs).map fun (js, rest) => (.array js, rest)
    | '{' :: cs =>
      match skipBlanks cs with
      | '}' :: cs => some (.object [], cs)
      | cs => (members? q fuel cs).map fun (ms, rest) => (.object ms, rest)
    | cs => number? cs

/-- Items, at least one, up to the bracket that closes them. -/
def items? (q : Quoting) : Nat → List Char → Option (List Json × List Char)
  | 0, _ => none
  | fuel + 1, cs => do
    let (j, cs) ← value? q fuel cs
    match skipBlanks cs with
    | ']' :: cs => some ([j], cs)
    | ',' :: cs => (items? q fuel cs).map fun (js, rest) => (j :: js, rest)
    | _ => none

/-- Members, at least one, up to the brace that closes them. -/
def members? (q : Quoting) : Nat → List Char → Option (List (String × Json) × List Char)
  | 0, _ => none
  | fuel + 1, cs =>
    match skipBlanks cs with
    | '"' :: cs => do
      let (k, cs) ← string? q cs
      match skipBlanks cs with
      | ':' :: cs => do
        let (j, cs) ← value? q fuel cs
        match skipBlanks cs with
        | '}' :: cs => some ([(String.ofList k, j)], cs)
        | ',' :: cs => (members? q fuel cs).map fun (ms, rest) => ((String.ofList k, j) :: ms, rest)
        | _ => none
      | _ => none
    | _ => none

end

/-- The JSON value that a whole text stands for. -/
def parse? (q : Quoting) (text : String) : Option Json := do
  let (j, rest) ← value? q (2 * text.length + 1) text.toList
  if (skipBlanks rest).isEmpty then some j else none

end HexConfig.Json
