import HexConfig.Hex

/-!
# Quoted strings

Two ways to put a text between quotes. *Verbatim* copies it as it is, so a reader finds its end only
if the text holds no quote. *Encoded* is the string of RFC 8259: a quote and a backslash get a
backslash in front, the five control characters that have a short escape get it, every other
character below U+0020 is written as four hexadecimal digits, and all else stands for itself, the
solidus, U+007F and everything outside ASCII included.
-/

namespace HexConfig

/-- How a text is put between quotes. -/
inductive Quoting where
  | verbatim
  | encoded
  deriving DecidableEq

namespace Quoting

/-- What one character of a text becomes in an encoded string. -/
def encodeChar (c : Char) : List Char :=
  if c = '"' then ['\\', '"']
  else if c = '\\' then ['\\', '\\']
  else if c = '\x08' then ['\\', 'b']
  else if c = '\x0c' then ['\\', 'f']
  else if c = '\n' then ['\\', 'n']
  else if c = '\r' then ['\\', 'r']
  else if c = '\t' then ['\\', 't']
  else if c.toNat < 0x20 then
    ['\\', 'u', '0', '0', Hex.ofDigit (c.toNat / 16), Hex.ofDigit (c.toNat % 16)]
  else [c]

/-- What stands between the quotes. -/
def inside : Quoting → List Char → List Char
  | verbatim, cs => cs
  | encoded, cs => cs.flatMap encodeChar

/-- A text between its quotes. -/
def quote (q : Quoting) (s : String) : List Char :=
  '"' :: (q.inside s.toList ++ ['"'])

end Quoting

end HexConfig
