import HexConfig.Conversion

/-!
# Scenarios

Small source texts with the JSON text each must convert to, one for each part of the language. An
installation is tried out by running them all; settings that are too tight, or that change how
strings are printed, may fail some.
-/

namespace HexConfig

/-- A source text, and what it must convert to. -/
structure Scenario where
  name : String
  source : String
  expected : String

namespace Scenario

/-- Every scenario, in the order they are run. -/
def all : List Scenario := [
  ⟨"single number",
    "port = 0x1A",
    "\x7b\n  \"port\": 26\n\x7d"⟩,
  ⟨"array",
    "ports = #( 0x01 0x02 0x03 )",
    "\x7b\n  \"ports\": [1, 2, 3]\n\x7d"⟩,
  ⟨"constant",
    "global MAX_SIZE = 0x100\nsize = ?[MAX_SIZE]",
    "\x7b\n  \"size\": 256\n\x7d"⟩,
  ⟨"object",
    "config = \x7b timeout = 0x1E enabled = true \x7d",
    "\x7b\n  \"config\": \x7b\n    \"enabled\": true,\n    \"timeout\": 30\n  \x7d\n\x7d"⟩,
  ⟨"combined",
    "global PORT = 0x50\nserver = \x7b port = ?[PORT] hosts = #( \"host1\" \"host2\" ) \x7d",
    "\x7b\n  \"server\": \x7b\n    \"hosts\": [\"host1\", \"host2\"],\n    \"port\": 80\n  \x7d\n\x7d"⟩,
  ⟨"nested objects",
    "app = \x7b database = \x7b host = \"localhost\" port = 0x2276 \x7d \x7d",
    "\x7b\n  \"app\": \x7b\n    \"database\": \x7b\n      \"host\": \"localhost\",\n      \"port\": 8822\n    \x7d\n  \x7d\n\x7d"⟩,
  ⟨"mixed types",
    "settings = \x7b numbers = #( 0x01 0x02 ) strings = #( \"a\" \"b\" ) flag = true \x7d",
    "\x7b\n  \"settings\": \x7b\n    \"flag\": true,\n    \"numbers\": [1, 2],\n    \"strings\": [\"a\", \"b\"]\n  \x7d\n\x7d"⟩,
  ⟨"multiple constants",
    "global WIDTH = 0x500\nglobal HEIGHT = 0x300\ndimensions = \x7b width = ?[WIDTH] height = ?[HEIGHT] \x7d",
    "\x7b\n  \"dimensions\": \x7b\n    \"height\": 768,\n    \"width\": 1280\n  \x7d\n\x7d"⟩]

/-- What came of a scenario: its number, counted from one, the text or the fault it converted to,
and what happened on the way. -/
structure Outcome where
  number : Nat
  scenario : Scenario
  output : Except Diagnostic String
  log : List Event

namespace Outcome

/-- Whether the scenario converted to what it must. -/
def passed (o : Outcome) : Bool :=
  match o.output with
  | .ok text => text = o.scenario.expected
  | .error _ => false

/-- The output as one text: the JSON text, or the message of the fault. -/
def text (o : Outcome) : String :=
  match o.output with
  | .ok text => text
  | .error d => d.message

end Outcome

/-- What comes of one scenario. -/
def run (settings : Settings) (number : Nat) (scenario : Scenario) : Outcome :=
  let reading := readSource settings scenario.source
  ⟨number, scenario, reading.print settings.quoting, reading.log⟩

/-- What comes of all of them. -/
def runAll (settings : Settings) : List Outcome :=
  (all.zipIdx 1).map fun (scenario, number) => run settings number scenario

end Scenario

end HexConfig
