import HexConfig.Hex
import HexConfig.Integer
import HexConfig.Settings

/-!
# Settings files

A settings file is TOML that gives up to three keys:

```text
max_depth = 64
max_nodes = 100000
escape_strings = true
```

Each key stands at most once and has its type: an integer that is not negative, for the limits, and a
boolean for the switch. Any other key and any other type is refused. That leaves one kind of line
besides the blank ones and the comments, a key and its value, so a file can be read line by line:
a table, an array, a text over several lines or a dotted key would be refused for what it holds
however it is written, and is refused here for how it is written.

What remains of TOML is kept in full: the three ways to write a key, the four bases of an integer
with underscores between digits, both line ends, and a comment after anything. Integers are signed
64-bit ones.
-/

namespace HexConfig.Settings.File

/-! ## Lines -/

/-- The lines of a text, ended by a line feed with or without a carriage return in front. -/
def lines : List Char → List (List Char)
  | [] => [[]]
  | '\n' :: cs => [] :: lines cs
  | '\r' :: '\n' :: cs => [] :: lines cs
  | c :: cs =>
    match lines cs with
    | [] => [[c]]
    | line :: rest => (c :: line) :: rest

/-- The blanks within a line. -/
def isSpace (c : Char) : Bool := c = ' ' || c = '\t'

/-- The characters of a comment: all but the control characters, a tab excepted. -/
def isCommentChar (c : Char) : Bool :=
  c = '\t' || (0x20 ≤ c.toNat && c.toNat != 0x7f)

/-- Whether nothing but blanks and perhaps a comment is left of a line. -/
def isOver (cs : List Char) : Bool :=
  match cs.dropWhile isSpace with
  | [] => true
  | '#' :: comment => comment.all isCommentChar
  | _ => false

/-! ## Keys -/

/-- The characters of a key that stands without quotes. -/
def isKeyChar (c : Char) : Bool := c.isAlphanum || c = '_' || c = '-'

/-- The character that hexadecimal digits number. -/
def numbered (digits : List Char) : Option Char :=
  if digits.all Hex.isDigit then some (Char.ofNat (Hex.value digits)) else none

/-- The inside of a key in double quotes, its escapes resolved, and what follows the closing
quote. -/
def quotedKey : List Char → Option (List Char × List Char)
  | [] => none
  | '"' :: cs => some ([], cs)
  | '\\' :: 'u' :: a :: b :: c :: d :: cs => do
    let ch ← numbered [a, b, c, d]
    let (key, rest) ← quotedKey cs
    return (ch :: key, rest)
  | '\\' :: 'U' :: a :: b :: c :: d :: e :: f :: g :: h :: cs => do
    let ch ← numbered [a, b, c, d, e, f, g, h]
    let (key, rest) ← quotedKey cs
    return (ch :: key, rest)
  | '\\' :: 'b' :: cs => (quotedKey cs).map fun (key, rest) => ('\x08' :: key, rest)
  | '\\' :: 't' :: cs => (quotedKey cs).map fun (key, rest) => ('\t' :: key, rest)
  | '\\' :: 'n' :: cs => (quotedKey cs).map fun (key, rest) => ('\n' :: key, rest)
  | '\\' :: 'f' :: cs => (quotedKey cs).map fun (key, rest) => ('\x0c' :: key, rest)
  | '\\' :: 'r' :: cs => (quotedKey cs).map fun (key, rest) => ('\r' :: key, rest)
  | '\\' :: '"' :: cs => (quotedKey cs).map fun (key, rest) => ('"' :: key, rest)
  | '\\' :: '\\' :: cs => (quotedKey cs).map fun (key, rest) => ('\\' :: key, rest)
  | '\\' :: _ => none
  | c :: cs => (quotedKey cs).map fun (key, rest) => (c :: key, rest)

/-- The key at the front of a line, and what follows it. -/
def key? : List Char → Option (List Char × List Char)
  | '"' :: cs => quotedKey cs
  | '\x27' :: cs =>
    match cs.dropWhile (· != '\x27') with
    | [] => none
    | _ :: rest => some (cs.takeWhile (· != '\x27'), rest)
  | cs => some (cs.takeWhile isKeyChar, cs.dropWhile isKeyChar)

/-! ## Values -/

/-- Digits without the underscores between them; an underscore elsewhere is refused, and so is
having no digit. -/
def joined (isDigit : Char → Bool) : List Char → Option (List Char)
  | [] => none
  | [c] => if isDigit c then some [c] else none
  | c :: '_' :: cs => if isDigit c then (joined isDigit cs).map (c :: ·) else none
  | c :: cs => if isDigit c then (joined isDigit cs).map (c :: ·) else none

/-- What digits are worth to a base. -/
def worth (base : Nat) (digits : List Char) : Nat :=
  digits.foldl (fun n c => base * n + Hex.digit c) 0

/-- A decimal number, without a sign: one digit, or more of which the first is not zero. -/
def decimal (cs : List Char) : Option Nat := do
  let digits ← joined Char.isDigit cs
  if digits.head? = some '0' ∧ digits.length ≠ 1 then none else some (worth 10 digits)

/-- An integer that is not negative. -/
def magnitude : List Char → Option Nat
  | '0' :: 'x' :: cs => (joined Hex.isDigit cs).map (worth 16)
  | '0' :: 'o' :: cs => (joined (fun c => '0' ≤ c && c ≤ '7') cs).map (worth 8)
  | '0' :: 'b' :: cs => (joined (fun c => c = '0' || c = '1') cs).map (worth 2)
  | '+' :: cs => decimal cs
  | '-' :: cs => do
    let n ← decimal cs
    if n = 0 then some 0 else none
  | cs => decimal cs

/-- A limit: an integer that is not negative and that a signed 64-bit integer can hold. -/
def limit (cs : List Char) : Option Nat := do
  let n ← magnitude cs
  if n < Integer.signedBound then some n else none

/-- A switch. -/
def switch (cs : List Char) : Option Bool :=
  if cs = "true".toList then some true
  else if cs = "false".toList then some false
  else none

/-! ## Files -/

/-- What the lines so far have given. -/
structure Draft where
  maxDepth : Option Nat
  maxNodes : Option Nat
  escapeStrings : Option Bool

namespace Draft

/-- Nothing given yet. -/
def empty : Draft := ⟨none, none, none⟩

/-- Gives a key its value, once. -/
def give (d : Draft) (key value : List Char) : Option Draft :=
  if key = "max_depth".toList then
    if d.maxDepth.isSome then none
    else (limit value).map fun n => { d with maxDepth := some n }
  else if key = "max_nodes".toList then
    if d.maxNodes.isSome then none
    else (limit value).map fun n => { d with maxNodes := some n }
  else if key = "escape_strings".toList then
    if d.escapeStrings.isSome then none
    else (switch value).map fun b => { d with escapeStrings := some b }
  else none

/-- Whether a character belongs to a value: one ends at a blank or at a comment. -/
def isValueChar (c : Char) : Bool := !isSpace c && c != '#'

/-- One line more. -/
def line (d : Draft) (cs : List Char) : Option Draft :=
  if isOver cs then some d
  else do
    let (key, rest) ← key? (cs.dropWhile isSpace)
    match rest.dropWhile isSpace with
    | '=' :: rest =>
      let rest := rest.dropWhile isSpace
      if isOver (rest.dropWhile isValueChar) then d.give key (rest.takeWhile isValueChar) else none
    | _ => none

/-- The settings given, the standard ones standing in for the rest. -/
def settings (d : Draft) : Settings where
  maxDepth := d.maxDepth.getD Settings.standard.maxDepth
  maxNodes := d.maxNodes.getD Settings.standard.maxNodes
  escapeStrings := d.escapeStrings.getD Settings.standard.escapeStrings

end Draft

/-- A text without the mark of byte order that may stand in front. -/
def withoutMark : List Char → List Char
  | '\ufeff' :: cs => cs
  | cs => cs

/-- The settings a file gives, or `none` if it is refused. -/
def parse (content : String) : Option Settings :=
  ((lines (withoutMark content.toList)).foldlM Draft.line .empty).map Draft.settings

end HexConfig.Settings.File
