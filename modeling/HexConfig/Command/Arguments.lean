import HexConfig.Decimal
import HexConfig.Settings

/-!
# Arguments

The words of a command line, taken one after the other. An option that needs a value has it behind an
equals sign in the same word, or in the next word, which then may not look like an option itself: it
may not start with a hyphen, a single hyphen excepted. No option stands twice, but for `-v`, which
counts, and no word stands alone.

What is asked for is known as soon as a word asks for the version or for help, if nothing was wrong
before it; what would have been wrong after it is not looked at.
-/

namespace HexConfig.Command

/-- The options that need a value. -/
inductive ValueOption where
  | input
  | output
  | config
  | maxDepth
  | maxNodes
  deriving DecidableEq

/-- The options that need none. -/
inductive FlagOption where
  | test
  | escapeStrings
  | verbose
  | version
  | help
  deriving DecidableEq

/-- What is wrong with a command line. -/
inductive UsageError where
  /-- A word that is no option, or no option this command has. -/
  | unexpected (word : String)
  /-- A second use of an option that may be used once. -/
  | repeated (option : String)
  /-- A value that is missing. -/
  | valueMissing (option : String)
  /-- A value that the option cannot have. -/
  | valueInvalid (option value : String)
  /-- A value for an option that has none. -/
  | valueUnwanted (option value : String)
  /-- Two options that exclude each other. -/
  | conflict (first second : String)
  /-- An option without which the others make no sense. -/
  | required (option : String)
  deriving DecidableEq

namespace ValueOption

/-- The spelling of an option. -/
def name : ValueOption → String
  | input => "--input"
  | output => "--output"
  | config => "--config"
  | maxDepth => "--max-depth"
  | maxNodes => "--max-nodes"

/-- The option that a word spells. -/
def ofName? (s : String) : Option ValueOption :=
  [input, output, config, maxDepth, maxNodes].find? (·.name = s)

end ValueOption

namespace FlagOption

/-- The spelling of an option. -/
def name : FlagOption → String
  | test => "--test"
  | escapeStrings => "--escape-strings"
  | verbose => "--verbose"
  | version => "--version"
  | help => "--help"

/-- The option that a word spells. -/
def ofName? (s : String) : Option FlagOption :=
  [test, escapeStrings, verbose, version, help].find? (·.name = s)

/-- The option that a letter after a single hyphen spells. -/
def ofLetter? : Char → Option FlagOption
  | 'v' => some verbose
  | 'V' => some version
  | 'h' => some help
  | _ => none

end FlagOption

/-- What the options say. -/
structure Arguments where
  input : Option String
  output : Option String
  config : Option String
  maxDepth : Option Nat
  maxNodes : Option Nat
  test : Bool
  escapeStrings : Bool
  verbosity : Nat
  deriving DecidableEq

/-- What a command line asks for. -/
inductive Request where
  | run (a : Arguments)
  | version
  | help
  deriving DecidableEq

namespace Arguments

/-- No option given. -/
def empty : Arguments := ⟨none, none, none, none, none, false, false, 0⟩

/-- A number as a limit: decimal digits, with a plus sign in front or without, up to the greatest
number a limit can be set to. -/
def number? (s : String) : Option Nat :=
  let digits := match s.toList with
    | '+' :: cs => cs
    | cs => cs
  if digits ≠ [] ∧ digits.all Char.isDigit ∧ Decimal.value digits ≤ Limits.greatest then
    some (Decimal.value digits)
  else none

/-- Sets what was not set before. -/
def once {α : Type} (option value : String) (old : Option α) (new : Option α) :
    Except UsageError (Option α) :=
  if old.isSome then .error (.repeated option)
  else if new.isNone then .error (.valueInvalid option value)
  else .ok new

/-- A path as a value: any text but the empty one. -/
def path? (s : String) : Option String := if s = "" then none else some s

/-- Gives an option its value. -/
def give (a : Arguments) (option : ValueOption) (value : String) : Except UsageError Arguments :=
  match option with
  | .input => return { a with input := ← once option.name value a.input (path? value) }
  | .output => return { a with output := ← once option.name value a.output (path? value) }
  | .config => return { a with config := ← once option.name value a.config (path? value) }
  | .maxDepth => return { a with maxDepth := ← once option.name value a.maxDepth (number? value) }
  | .maxNodes => return { a with maxNodes := ← once option.name value a.maxNodes (number? value) }

/-- Raises a flag. The left result is a request that needs no more words. -/
def raise (a : Arguments) : FlagOption → Except UsageError (Request ⊕ Arguments)
  | .test => if a.test then .error (.repeated "--test") else .ok (.inr { a with test := true })
  | .escapeStrings =>
    if a.escapeStrings then .error (.repeated "--escape-strings")
    else .ok (.inr { a with escapeStrings := true })
  | .verbose => .ok (.inr { a with verbosity := a.verbosity + 1 })
  | .version => .ok (.inl .version)
  | .help => .ok (.inl .help)

/-- Raises the flags of the letters after a single hyphen. -/
def letters (a : Arguments) (word : String) : List Char → Except UsageError (Request ⊕ Arguments)
  | [] => .ok (.inr a)
  | c :: cs =>
    match FlagOption.ofLetter? c with
    | none => .error (.unexpected word)
    | some flag => do
      match ← a.raise flag with
      | .inl request => return .inl request
      | .inr a => a.letters word cs

/-- Whether a word looks like an option, and so cannot be the value of the one before it. -/
def looksLikeOption (word : String) : Bool :=
  match word.toList with
  | '-' :: _ :: _ => true
  | _ => false

/-- What is said must make sense together: either a text is converted or the scenarios are run, and
an output needs a text. -/
def check (a : Arguments) : Except UsageError Request :=
  if a.test then
    if a.input.isSome then .error (.conflict "--test" "--input") else .ok (.run a)
  else if a.input.isNone then .error (.required "--input")
  else .ok (.run a)

/-- The words of a command line one after the other; `pending` is the option whose value the next
word is. -/
def parseFrom (a : Arguments) (pending : Option ValueOption) :
    List String → Except UsageError Request
  | [] =>
    match pending with
    | some option => .error (.valueMissing option.name)
    | none => a.check
  | word :: words =>
    match pending with
    | some option =>
      if looksLikeOption word then .error (.valueMissing option.name)
      else do (← a.give option word).parseFrom none words
    | none =>
      match word.toList with
      | ['-', '-'] =>
        match words with
        | [] => a.check
        | word :: _ => .error (.unexpected word)
      | '-' :: '-' :: cs =>
        let name := String.ofList ('-' :: '-' :: cs.takeWhile (· != '='))
        let value? := match cs.dropWhile (· != '=') with
          | [] => none
          | _ :: value => some (String.ofList value)
        match ValueOption.ofName? name, FlagOption.ofName? name, value? with
        | some option, _, some value => do (← a.give option value).parseFrom none words
        | some option, _, none => a.parseFrom (some option) words
        | none, some flag, none => do
          match ← a.raise flag with
          | .inl request => return request
          | .inr a => a.parseFrom none words
        | none, some flag, some value => .error (.valueUnwanted flag.name value)
        | none, none, _ => .error (.unexpected word)
      | '-' :: c :: cs => do
        match ← a.letters word (c :: cs) with
        | .inl request => return request
        | .inr a => a.parseFrom none words
      | _ => .error (.unexpected word)

/-- What a command line asks for. -/
def parse (words : List String) : Except UsageError Request := empty.parseFrom none words

end Arguments

end HexConfig.Command
