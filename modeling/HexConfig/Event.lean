import HexConfig.Constant
import HexConfig.Token

/-!
# Events

What a reader tells about its work as it goes: each token it uses up, each constant it publishes,
and each value that a later one of the same name replaces. Events have no say in the result.
-/

namespace HexConfig

/-- How much detail an event belongs to, from the least to the most. -/
inductive Level where
  | info
  | debug
  | trace
  deriving DecidableEq

/-- The name of a level. -/
def Level.name : Level → String
  | info => "INFO"
  | debug => "DEBUG"
  | trace => "TRACE"

/-- Whether events of a level are told at a verbosity: at none nothing is, and each step up to
three adds a level. -/
def Level.toldAt (verbosity : Nat) : Level → Bool
  | info => 1 ≤ verbosity
  | debug => 2 ≤ verbosity
  | trace => 3 ≤ verbosity

/-- The characters of a text as a message shows them: quotes, backslashes and control characters
are written as escapes, and every other character stands for itself. -/
def shownChar (c : Char) : List Char :=
  if c = '"' then ['\\', '"']
  else if c = '\\' then ['\\', '\\']
  else if c = '\n' then ['\\', 'n']
  else if c = '\r' then ['\\', 'r']
  else if c = '\t' then ['\\', 't']
  else if c = '\x00' then ['\\', '0']
  else if c.toNat < 0x20 || (0x7f ≤ c.toNat && c.toNat < 0xa0) then
    ['\\', 'u', '\x7b'] ++ Nat.toDigits 16 c.toNat ++ ['\x7d']
  else [c]

/-- A text in quotes, as a message shows it. -/
def shown (s : String) : String :=
  String.ofList ('"' :: (s.toList.flatMap shownChar ++ ['"']))

/-- What happens while a text is read. -/
inductive Event where
  /-- A token was used up. -/
  | consumed (t : Token)
  /-- A name at the top level was assigned before. -/
  | overwritten (key : String)
  /-- A block without a name follows another. -/
  | blockReplaced (key : String)
  /-- A constant was published. -/
  | published (name : String) (constant : Constant)
  /-- The constant just published had been published before. -/
  | redeclared (name : String)
  deriving DecidableEq

namespace Event

/-- The level of an event: single tokens are the finest detail. -/
def level : Event → Level
  | consumed _ => .trace
  | _ => .debug

/-- The words for an event. -/
def message : Event → String
  | consumed t =>
    "consumed " ++ t.kind.name ++ " " ++ shown t.text ++ " at " ++ toString t.position.line ++ ":"
      ++ toString t.position.column
  | overwritten key => "top-level key '" ++ key ++ "' overwritten"
  | blockReplaced key => "bare block replaces previous '" ++ key ++ "' entry"
  | published name c =>
    "global '" ++ name ++ "' = " ++ c.value.typeName ++ " (depth " ++ toString c.depth ++ ", "
      ++ toString c.size ++ " nodes)"
  | redeclared name => "global '" ++ name ++ "' redeclared"

end Event

end HexConfig
