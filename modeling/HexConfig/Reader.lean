import HexConfig.Reader.Machine
import HexConfig.Token.Cursor

/-!
# Readers

A reader stands at a place in a row of tokens with what it has learned so far: the constants
published, and the tally. `Reader.read` reads on from there until a fault or the end, into a document
of its own. Each reading starts at the top level and with an empty document, whatever construct the
one before stopped in; all else it takes up as it was left. So a reader can go on after a fault, and
it keeps what was counted and published before.

The mark of the end is never used up: a reader at the end of its row stays there.
-/

namespace HexConfig

/-- What one reading gives: a document or the first fault, and what happened, in order. -/
structure Reading where
  result : Except Diagnostic Document
  log : List Event

/-- A place in a row of tokens, with what was learned on the way there. -/
structure Reader where
  tokens : Tokens
  limits : Limits
  constants : Constants
  tally : Tally

namespace Reader

/-- A reader at the start of a text. -/
def ofText (s : String) (limits : Limits) : Reader := ⟨.ofText s, limits, [], .zero⟩

/-- The same reader under another limit on nesting. -/
def withMaxDepth (r : Reader) (n : Nat) : Reader :=
  { r with limits := { r.limits with maxDepth := n } }

/-- The same reader under another limit on values written out. -/
def withMaxNodes (r : Reader) (n : Nat) : Reader :=
  { r with limits := { r.limits with maxNodes := n } }

/-- The reader that a reading leaves at `rest`, in state `s`. -/
def leftAt (r : Reader) (rest : List Token) (s : Reader.State) : Reader :=
  { r with
    tokens := { r.tokens with list := rest }
    constants := s.constants
    tally := s.tally }

/-- Reads on to the first fault or the end. -/
def read (r : Reader) : Reading × Reader :=
  match (Reader.State.start r.constants r.tally).feed r.limits r.tokens.list with
  | .error stop =>
    (⟨.error stop.diagnostic, stop.state.log.reverse⟩, r.leftAt stop.rest stop.state)
  | .ok s =>
    match s.finish? r.tokens.finish with
    | some diagnostic => (⟨.error diagnostic, s.log.reverse⟩, r.leftAt [] s)
    | none => (⟨.ok s.document, s.log.reverse⟩, r.leftAt [] s)

end Reader

end HexConfig
