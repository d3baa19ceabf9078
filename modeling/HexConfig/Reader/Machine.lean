import HexConfig.Diagnostic
import HexConfig.Document
import HexConfig.Event
import HexConfig.Hex
import HexConfig.Integer
import HexConfig.Reader.Tally

/-!
# The machine that reads tokens

The language, a row of declarations:

```text
declaration  ::=  GLOBAL IDENTIFIER EQUALS value   a constant
              |   IDENTIFIER EQUALS value          an entry of the document
              |   object                           the entry without a name
value        ::=  NUMBER | STRING | array | reference | object
array        ::=  HASH LPAREN value* RPAREN
reference    ::=  QUESTION LBRACKET IDENTIFIER RBRACKET
object       ::=  LBRACE (IDENTIFIER EQUALS value)* RBRACE
```

The machine takes one token at a time and never looks at another. Its memory of the open constructs
is `Awaiting`: what the next token has to be, and around it the `Context`, the containers that are
open with what they hold so far and the declaration they all belong to. A finished value goes into
the innermost open container, or closes the declaration when none is open.

Two kinds of stop are kept apart, because they leave different states behind. A token that does not
fit is *refused*: it is not used up, and nothing at all has changed. A token that fits may still
raise a fault of another kind, a limit, a number or an unknown name: then the token is used up, and
what the machine had counted by then stays counted.

The order of the checks at one value is fixed. A container is entered, which can go too deep, before
it is counted, which can be too much; a number is counted before its digits are looked at; a
reference is looked up, then measured against the depth, then counted. A container or a reference is
at fault at its first token, and an array is not entered before its parenthesis.
-/

namespace HexConfig.Reader

/-- The declaration a value is read for. -/
inductive Destination where
  /-- The constant `name`, begun when `before` values were written out. -/
  | global (name : String) (before : Nat)
  /-- The entry `key` of the document. -/
  | entry (key : String)
  /-- The entry without a name. -/
  | block
  deriving DecidableEq

/-- An open container around the value being read. -/
inductive Frame where
  /-- An array, by the items before the value, the latest first. -/
  | sequence (items : List Value)
  /-- An object, by the entries before the value, and the name the value is for. -/
  | mapping (entries : Entries Value) (key : String)
  deriving DecidableEq

/-- All there is around a value: what it is for, and the open containers, the innermost first. -/
structure Context where
  destination : Destination
  frames : List Frame
  deriving DecidableEq

/-- The context inside one more container. -/
def Context.within (ctx : Context) (f : Frame) : Context :=
  { ctx with frames := f :: ctx.frames }

/-- What the next token has to be, with all that is needed to go on from it. -/
inductive Awaiting where
  /-- A declaration, or the end. -/
  | declaration
  /-- The name of a constant. -/
  | globalName
  /-- The sign between a constant's name and its value. -/
  | globalEquals (name : String)
  /-- The sign between a name at the top level and its value. -/
  | entryEquals (key : String)
  /-- A value. -/
  | value (ctx : Context)
  /-- The parenthesis of an array whose mark stands at `hash`. -/
  | arrayParen (hash : Position) (ctx : Context)
  /-- An array's next item or its closing parenthesis. -/
  | item (items : List Value) (ctx : Context)
  /-- An object's next name or its closing brace. -/
  | key (entries : Entries Value) (ctx : Context)
  /-- The sign between a name in an object and its value. -/
  | equals (entries : Entries Value) (key : String) (ctx : Context)
  /-- The bracket of a reference whose mark stands at `question`. -/
  | referenceBracket (question : Position) (ctx : Context)
  /-- The name in a reference. -/
  | referenceName (question : Position) (ctx : Context)
  /-- The closing bracket of a reference to the name that `name` carries. -/
  | referenceEnd (question : Position) (name : Token) (ctx : Context)
  deriving DecidableEq

namespace Awaiting

/-- What a token that does not fit is told was expected. -/
def expected : Awaiting → Expected
  | declaration => .declaration
  | globalName => .kind .identifier
  | globalEquals _ => .kind .equals
  | entryEquals _ => .kind .equals
  | value _ => .value
  | arrayParen .. => .kind .leftParen
  | item .. => .value
  | key .. => .kind .identifier
  | equals .. => .kind .equals
  | referenceBracket .. => .kind .leftBracket
  | referenceName .. => .kind .identifier
  | referenceEnd .. => .kind .rightBracket

/-- What input that runs out is told was expected; nothing, if it may run out here. Inside a
container it is the closing token that is missed. -/
def missing? : Awaiting → Option Expected
  | declaration => none
  | item .. => some (.kind .rightParen)
  | key .. => some (.kind .rightBrace)
  | awaiting => some awaiting.expected

end Awaiting

/-- All that reading has come to. -/
structure State where
  awaiting : Awaiting
  document : Document
  constants : Constants
  tally : Tally
  /-- What happened, the latest first. -/
  log : List Event
  deriving DecidableEq

/-- Why a token stopped the machine. -/
inductive Halt where
  /-- The token does not fit, and is not used up. -/
  | refused (expected : Expected)
  /-- The token is used up and raised a fault; the state is the one it left behind. -/
  | failed (diagnostic : Diagnostic) (state : State)

namespace State

/-- The state at the start of a reading: an empty document, and what earlier readings left. -/
def start (constants : Constants) (tally : Tally) : State :=
  ⟨.declaration, .empty, constants, tally, []⟩

/-- Something happened. -/
def note (s : State) (e : Event) : State := { s with log := e :: s.log }

/-- The next token has to be something else. -/
def await (s : State) (awaiting : Awaiting) : State := { s with awaiting := awaiting }

/-! ## Counting -/

/-- One more container is open, whose first token is at `p`, or the nesting is too deep. -/
def enter (limits : Limits) (p : Position) (s : State) : Except Halt State :=
  if limits.maxDepth ≤ s.tally.depth then
    .error (.failed ⟨.nestingTooDeep limits.maxDepth, p⟩ s)
  else .ok { s with tally := s.tally.enter }

/-- One container fewer is open. -/
def leave (s : State) : State := { s with tally := s.tally.leave }

/-- So many more values are written out at `p`, which may be too many. They are counted all the
same. -/
def charge (limits : Limits) (n : Nat) (p : Position) (s : State) : Except Halt State :=
  if limits.maxNodes < (s.tally.charge n).nodes then
    .error (.failed ⟨.tooManyNodes limits.maxNodes, p⟩ { s with tally := s.tally.charge n })
  else .ok { s with tally := s.tally.charge n }

/-! ## Finished values -/

/-- A constant has its value: it is published with its measures, and what it wrote out is taken
back. -/
def publish (s : State) (name : String) (before : Nat) (v : Value) : State :=
  let constant : Constant := ⟨v, s.tally.peak, s.tally.nodes - before⟩
  let log := .published name constant :: s.log
  { s with
    awaiting := .declaration
    constants := s.constants.write name constant
    tally := s.tally.endConstant before
    log := if (s.constants.find? name).isSome then .redeclared name :: log else log }

/-- An entry of the document has its value; `lost` tells of the value it replaces. -/
def assign (s : State) (key : String) (v : Value) (lost : Event) : State :=
  { s with
    awaiting := .declaration
    document := s.document.insert key v
    log := if (s.document.get? key).isSome then lost :: s.log else s.log }

/-- A declaration has its value. -/
def declare (s : State) (v : Value) : Destination → State
  | .global name before => s.publish name before v
  | .entry key => s.assign key v (.overwritten key)
  | .block => s.assign Document.unnamedKey v (.blockReplaced Document.unnamedKey)

/-- A finished value goes where it belongs. -/
def deliver (s : State) (v : Value) (ctx : Context) : State :=
  match ctx.frames with
  | [] => s.declare v ctx.destination
  | .sequence items :: frames => s.await (.item (v :: items) ⟨ctx.destination, frames⟩)
  | .mapping entries key :: frames =>
    s.await (.key (entries.write key v) ⟨ctx.destination, frames⟩)

/-! ## Values -/

/-- The number that digits stand for. -/
def decode (digits : String) : Except Fault Int :=
  if digits = "" then .error .invalidNumber
  else if Hex.value digits.toList < Integer.signedBound then .ok (Hex.value digits.toList)
  else .error (.numericOverflow digits)

/-- A number, counted and then decoded. -/
def number (limits : Limits) (t : Token) (ctx : Context) (s : State) : Except Halt State := do
  let s ← s.charge limits 1 t.position
  match decode t.text with
  | .ok n => pure (s.deliver (.number n) ctx)
  | .error fault => throw (.failed ⟨fault, t.position⟩ s)

/-- A string, counted. -/
def string (limits : Limits) (t : Token) (ctx : Context) (s : State) : Except Halt State := do
  let s ← s.charge limits 1 t.position
  pure (s.deliver (.ofString t.text) ctx)

/-- A container is opened, whose first token is at `p`; what comes next is `inside`. -/
def openContainer (limits : Limits) (p : Position) (inside : Awaiting) (s : State) :
    Except Halt State := do
  let s ← s.enter limits p
  let s ← s.charge limits 1 p
  pure (s.await inside)

/-- A reference is complete: the value of the constant is spliced in, and what it wrote out is
written out once more. -/
def refer (limits : Limits) (question : Position) (name : Token) (ctx : Context) (s : State) :
    Except Halt State :=
  match s.constants.find? name.text with
  | none => throw (.failed ⟨.unknownConstant name.text, name.position⟩ s)
  | some constant =>
    if limits.maxDepth < s.tally.reach constant.depth then
      throw (.failed ⟨.nestingTooDeep limits.maxDepth, question⟩ s)
    else do
      let s ← charge limits constant.size question
        { s with tally := s.tally.splice constant.depth }
      pure (s.deliver constant.value ctx)

/-- The first token of a value. -/
def beginValue (limits : Limits) (t : Token) (ctx : Context) (s : State) : Except Halt State :=
  match t.kind with
  | .number => s.number limits t ctx
  | .text => s.string limits t ctx
  | .hash => pure (s.await (.arrayParen t.position ctx))
  | .question => pure (s.await (.referenceBracket t.position ctx))
  | .leftBrace => s.openContainer limits t.position (.key [] ctx)
  | _ => throw (.refused .value)

/-- Goes on if the token is of the one kind that fits. -/
def require (kind : Token.Kind) (t : Token) (s : State) : Except Halt State :=
  if t.kind = kind then .ok s else .error (.refused (.kind kind))

/-! ## Tokens -/

/-- The first token of a declaration. -/
def beginDeclaration (limits : Limits) (t : Token) (s : State) : Except Halt State :=
  match t.kind with
  | .global => pure (s.await .globalName)
  | .identifier => pure (s.await (.entryEquals t.text))
  | .leftBrace => s.openContainer limits t.position (.key [] ⟨.block, []⟩)
  | _ => throw (.refused .declaration)

/-- A token inside an array. -/
def insideArray (limits : Limits) (t : Token) (items : List Value) (ctx : Context) (s : State) :
    Except Halt State :=
  if t.kind = .rightParen then pure (s.leave.deliver (.sequence items.reverse) ctx)
  else s.beginValue limits t (ctx.within (.sequence items))

/-- A token between the entries of an object. -/
def insideObject (t : Token) (entries : Entries Value) (ctx : Context) (s : State) :
    Except Halt State :=
  match t.kind with
  | .identifier => pure (s.await (.equals entries t.text ctx))
  | .rightBrace => pure (s.leave.deliver (.mapping entries) ctx)
  | _ => throw (.refused (.kind .identifier))

/-- One token. -/
def step (limits : Limits) (s : State) (t : Token) : Except Halt State :=
  let s := s.note (.consumed t)
  match s.awaiting with
  | .declaration => s.beginDeclaration limits t
  | .globalName => (·.await (.globalEquals t.text)) <$> s.require .identifier t
  | .globalEquals name =>
    (fun s => { s with
      awaiting := .value ⟨.global name s.tally.nodes, []⟩
      tally := s.tally.beginConstant }) <$> s.require .equals t
  | .entryEquals key => (·.await (.value ⟨.entry key, []⟩)) <$> s.require .equals t
  | .value ctx => s.beginValue limits t ctx
  | .arrayParen hash ctx => do
    let s ← s.require .leftParen t
    s.openContainer limits hash (.item [] ctx)
  | .item items ctx => s.insideArray limits t items ctx
  | .key entries ctx => s.insideObject t entries ctx
  | .equals entries key ctx =>
    (·.await (.value (ctx.within (.mapping entries key)))) <$> s.require .equals t
  | .referenceBracket question ctx =>
    (·.await (.referenceName question ctx)) <$> s.require .leftBracket t
  | .referenceName question ctx =>
    (·.await (.referenceEnd question t ctx)) <$> s.require .identifier t
  | .referenceEnd question name ctx => do
    let s ← s.require .rightBracket t
    s.refer limits question name ctx

end State

/-- Where the machine stopped before the end of a row: the diagnostic, the state left behind, and
the tokens not used up. -/
structure Stop where
  diagnostic : Diagnostic
  state : State
  rest : List Token

namespace State

/-- The tokens of a row one after the other, up to the first that stops the machine. -/
def feed (limits : Limits) (s : State) : List Token → Except Stop State
  | [] => .ok s
  | t :: rest =>
    match s.step limits t with
    | .ok s => s.feed limits rest
    | .error (.refused expected) => .error ⟨.unexpected expected t, s, t :: rest⟩
    | .error (.failed diagnostic s) => .error ⟨diagnostic, s, rest⟩

/-- What is wrong with input that ends here, at `p`. -/
def finish? (s : State) (p : Position) : Option Diagnostic :=
  s.awaiting.missing?.map (Diagnostic.unexpected · (Token.finish p))

end State

end HexConfig.Reader
