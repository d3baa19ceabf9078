import HexConfig.Command.Arguments
import HexConfig.FileTree
import HexConfig.Scenario
import HexConfig.Settings.File

/-!
# The command

What a command line does to the files it names: it settles the settings, reads one text, converts it
and writes the result, or runs the scenarios. It is written against `FileStore`, so the same
function runs on real files and on a `FileTree`.

The settings come from the file given, or from the one of the standard name if there is one; the
options then have the last word, except that strings once asked to be encoded stay so.

The result is written beside its target first and then takes the target's name, so a write that
fails halfway never leaves half a result under that name. What was written beside it is removed when
anything fails.
-/

namespace HexConfig.Command

/-- The name the command goes by. -/
def name : String := "conflang"

/-- The version of the command. -/
def version : String := "0.1.0"

/-- The line that tells the version. -/
def versionLine : String := name ++ " " ++ version

/-- The settings file that is looked for where none is given. -/
def settingsFile : String := "conflang.toml"

/-! ## Notices -/

/-- What happens while a command runs. -/
inductive Notice where
  /-- The settings are settled. -/
  | settled (settings : Settings)
  /-- So many bytes were read. -/
  | wasRead (bytes : Nat) (path : String)
  /-- So many bytes were written. -/
  | wasWritten (bytes : Nat) (path : String)
  /-- A reader told of its work. -/
  | reading (event : Event)
  deriving DecidableEq

namespace Notice

/-- The level of a notice. -/
def level : Notice → Level
  | settled _ => .debug
  | wasRead .. => .info
  | wasWritten .. => .info
  | reading e => e.level

/-- The words for a notice. -/
def message : Notice → String
  | settled s =>
    "configuration: TranslatorConfig \x7b max_depth: " ++ toString s.maxDepth ++ ", max_nodes: "
      ++ toString s.maxNodes ++ ", escape_strings: " ++ toString s.escapeStrings ++ " \x7d"
  | wasRead bytes path => "read " ++ toString bytes ++ " bytes from " ++ path
  | wasWritten bytes path => "wrote " ++ toString bytes ++ " bytes to " ++ path
  | reading e => e.message

end Notice

/-! ## Failures -/

/-- Why a command fails. -/
inductive Failure where
  /-- The settings file cannot be read. -/
  | settingsUnreadable (path : String) (e : FileError)
  /-- The settings file is refused. -/
  | settingsInvalid
  /-- The source text cannot be read. -/
  | sourceUnreadable (path : String) (e : FileError)
  /-- The source text has a fault. -/
  | sourceFaulty (path : String) (d : Diagnostic)
  /-- The result cannot be written. -/
  | targetUnwritable (path : String) (e : FileError)
  /-- So many scenarios did not pass. -/
  | scenariosFailed (count : Nat)
  /-- There is nothing to do. -/
  | nothingToDo
  deriving DecidableEq

/-- The words for a failure. -/
def Failure.message : Failure → String
  | settingsUnreadable path e => "Cannot read config " ++ path ++ ": " ++ e.message
  | settingsInvalid => "Invalid configuration"
  | sourceUnreadable path e => "Cannot read " ++ path ++ ": " ++ e.message
  | sourceFaulty path d => path ++ ": " ++ d.message
  | targetUnwritable path e => "Cannot write " ++ path ++ ": " ++ e.message
  | scenariosFailed count => toString count ++ " scenario(s) failed"
  | nothingToDo => "either --input <path> or --test is required"

/-- What a command comes to: the lines it prints, what happened, in order, and why it failed, if it
did. -/
structure Report where
  lines : List String
  notices : List Notice
  failure : Option Failure
  deriving DecidableEq

namespace Report

/-- A failure with nothing printed. -/
def failed (notices : List Notice) (failure : Failure) : Report := ⟨[], notices, some failure⟩

/-- The text printed: each line with a line feed behind it. -/
def output (r : Report) : String := r.lines.foldl (fun s line => s ++ line ++ "\n") ""

/-- The text printed to tell why the command failed. -/
def complaint (r : Report) : String :=
  match r.failure with
  | none => ""
  | some failure => "Error: " ++ failure.message ++ "\n"

/-- The exit code. -/
def code (r : Report) : Nat := if r.failure.isSome then 1 else 0

/-- The notices told at a verbosity. -/
def told (r : Report) (verbosity : Nat) : List Notice :=
  r.notices.filter (·.level.toldAt verbosity)

end Report

/-! ## Files -/

variable {m : Type → Type} [Monad m] [FileStore m]

/-- The text of a file. -/
def readText (path : String) : m (Except FileError String) := do
  match ← FileStore.read path with
  | .error e => return .error e
  | .ok content =>
    match String.fromUTF8? content with
    | some text => return .ok text
    | none => return .error .notText

/-- Makes a file of this text in one stroke: written beside the path, then moved there. -/
def replaceFile (path text : String) : m (Except FileError Unit) := do
  let draft := Path.beside path ".tmp"
  match ← FileStore.write draft text.toUTF8 with
  | .error e =>
    FileStore.remove draft
    return .error e
  | .ok () =>
    match ← FileStore.rename draft path with
    | .error e =>
      FileStore.remove draft
      return .error e
    | .ok () => return .ok ()

/-! ## Settings -/

/-- The settings that a file gives. -/
def readSettings (path : String) : m (Except Failure Settings) := do
  match ← readText path with
  | .error e => return .error (.settingsUnreadable path e)
  | .ok text =>
    match Settings.File.parse text with
    | some settings => return .ok settings
    | none => return .error .settingsInvalid

/-- The settings before the options are looked at. -/
def baseSettings (config : Option String) : m (Except Failure Settings) := do
  match config with
  | some path => readSettings path
  | none =>
    if ← FileStore.holds settingsFile then readSettings settingsFile
    else return .ok .standard

/-- Settings with the options applied. -/
def Arguments.override (a : Arguments) (s : Settings) : Settings where
  maxDepth := a.maxDepth.getD s.maxDepth
  maxNodes := a.maxNodes.getD s.maxNodes
  escapeStrings := s.escapeStrings || a.escapeStrings

/-! ## Commands -/

/-- The line that tells of a scenario. -/
def outcomeLine (o : Scenario.Outcome) : String :=
  let number := "Test " ++ toString o.number
  if o.passed then number ++ " passed: " ++ o.text
  else
    number ++ " failed (" ++ o.scenario.name ++ "): "
      ++ (if o.output.isOk then "unexpected output " else "") ++ o.text

/-- Runs the scenarios, and tells of each and of all. -/
def runScenarios (settings : Settings) (notices : List Notice) : Report :=
  let outcomes := Scenario.runAll settings
  let failed := (outcomes.filter (!·.passed)).length
  { lines :=
      ["Running built-in scenarios..."] ++ outcomes.map outcomeLine ++
        ["", "--- RESULTS ---", "Total : " ++ toString outcomes.length,
          "Passed: " ++ toString (outcomes.length - failed), "Failed: " ++ toString failed]
    notices := notices ++ outcomes.flatMap fun o => o.log.map .reading
    failure := if failed = 0 then none else some (.scenariosFailed failed) }

/-- Converts a file, to another file or to the output. -/
def convertFile (input : String) (output : Option String) (settings : Settings)
    (notices : List Notice) : m Report := do
  match ← readText input with
  | .error e => return .failed notices (.sourceUnreadable input e)
  | .ok source =>
    let reading := readSource settings source
    let notices := notices ++ .wasRead source.utf8ByteSize input :: reading.log.map .reading
    match reading.print settings.quoting with
    | .error d => return .failed notices (.sourceFaulty input d)
    | .ok text =>
      match output with
      | none => return ⟨[text], notices, none⟩
      | some path =>
        match ← replaceFile path text with
        | .error e => return .failed notices (.targetUnwritable path e)
        | .ok () =>
          return ⟨["Translated " ++ input ++ " to " ++ path],
            notices ++ [.wasWritten text.utf8ByteSize path], none⟩

/-- Does what the options say. -/
def run (a : Arguments) : m Report := do
  match ← baseSettings a.config with
  | .error failure => return .failed [] failure
  | .ok settings =>
    let settings := a.override settings
    let notices := [Notice.settled settings]
    if a.test then return runScenarios settings notices
    else
      match a.input with
      | none => return .failed notices .nothingToDo
      | some input => convertFile input a.output settings notices

/-! ## Command lines -/

/-- What a command line comes to. -/
inductive Answer where
  /-- It cannot be understood. -/
  | misused (e : UsageError)
  /-- It is to be told which version this is. -/
  | version
  /-- It is to be told how the command is used. -/
  | help
  /-- The command ran, and is to be told of in so much detail. -/
  | ran (report : Report) (verbosity : Nat)
  deriving DecidableEq

/-- The exit code. -/
def Answer.code : Answer → Nat
  | misused _ => 2
  | version => 0
  | help => 0
  | ran report _ => report.code

/-- Does what the words of a command line ask for. -/
def answer (words : List String) : m Answer := do
  match Arguments.parse words with
  | .error e => return .misused e
  | .ok .version => return .version
  | .ok .help => return .help
  | .ok (.run a) => return .ran (← run a) a.verbosity

end HexConfig.Command
