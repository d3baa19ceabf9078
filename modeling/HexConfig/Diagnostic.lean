import HexConfig.Token

/-!
# Diagnostics

Reading a text stops at its first fault. A diagnostic is the fault and the place of the token that
raised it; the wording lives in `Diagnostic.message` alone.
-/

namespace HexConfig

/-- What the grammar had room for where it met a token it could not use. -/
inductive Expected where
  | kind (k : Token.Kind)
  /-- Anything a value starts with. -/
  | value
  /-- Anything a declaration at the top level starts with. -/
  | declaration
  deriving DecidableEq

/-- The name of what was expected. -/
def Expected.name : Expected → String
  | kind k => k.name
  | value => "value"
  | declaration => "declaration"

/-- What is wrong with a text. -/
inductive Fault where
  /-- The token does not fit the grammar. Input that runs out is the mark of the end not fitting. -/
  | unexpected (expected : Expected) (found : Token.Kind) (text : String)
  /-- A reference to a name that no constant has yet. -/
  | unknownConstant (name : String)
  /-- A number that a signed 64-bit integer cannot hold, by its digits as written. -/
  | numericOverflow (literal : String)
  /-- A number without digits. -/
  | invalidNumber
  /-- Containers nested beyond the limit. -/
  | nestingTooDeep (limit : Nat)
  /-- More values written out than the limit allows. -/
  | tooManyNodes (limit : Nat)
  deriving DecidableEq

/-- The words for a fault. -/
def Fault.message : Fault → String
  | .unexpected expected .finish _ =>
    "expected " ++ expected.name ++ ", got END (unexpected end of input)"
  | .unexpected expected found text =>
    "expected " ++ expected.name ++ ", got " ++ found.name ++ " '" ++ text ++ "'"
  | .unknownConstant name => "unknown constant '" ++ name ++ "'"
  | .numericOverflow literal =>
    "hex literal 0x" ++ literal ++ " does not fit in a signed 64-bit integer"
  | .invalidNumber => "hex literal has no digits after '0x'"
  | .nestingTooDeep limit => "nesting deeper than " ++ toString limit ++ " levels"
  | .tooManyNodes limit => "document expands to more than " ++ toString limit ++ " nodes"

/-- A fault, and where it is. -/
structure Diagnostic where
  fault : Fault
  position : Position
  deriving DecidableEq

namespace Diagnostic

/-- The fault of a token that the grammar has no room for. -/
def unexpected (expected : Expected) (t : Token) : Diagnostic :=
  ⟨.unexpected expected t.kind t.text, t.position⟩

/-- The line that tells of a diagnostic. -/
def message (d : Diagnostic) : String :=
  "line " ++ toString d.position.line ++ ", column " ++ toString d.position.column ++ ": "
    ++ d.fault.message

/-- Whether input ran out where more was needed. -/
def isUnterminated (d : Diagnostic) : Bool :=
  match d.fault with
  | .unexpected _ .finish _ => true
  | _ => false

end Diagnostic

end HexConfig
