import HexConfig.Command

/-!
# The program

The command on real files. All that is decided is decided in `HexConfig.Command`; what is here reads
and writes.
-/

namespace HexConfig

/-- The number of a system error, which some operations give negated. -/
def errorNumber (code : UInt32) : Nat :=
  if code.toNat < 2147483648 then code.toNat else (0 - code).toNat

/-- What a failed operation on real files has to say. -/
def FileError.ofIO (e : IO.Error) : FileError :=
  match e with
  | .noFileOrDirectory .. => .notFound
  | .noSuchThing .. => .notFound
  | .inappropriateType _ code _ => if errorNumber code = 21 then .isDirectory else .notDirectory
  | .resourceBusy .. => .busy
  | .invalidArgument _ code _ =>
    if errorNumber code = 36 then .nameTooLong else .other e.toString
  | _ => .other e.toString

/-- An operation on real files, its failure as a result. -/
def attemptIO {α : Type} (act : IO α) : IO (Except FileError α) := do
  match ← act.toBaseIO with
  | .ok a => return .ok a
  | .error e => return .error (.ofIO e)

instance : FileStore IO where
  holds path := do
    match ← attemptIO (IO.FS.readBinFile path) with
    | .error .notFound => return false
    | .error .notDirectory => return false
    | _ => return true
  read path := attemptIO (IO.FS.readBinFile path)
  write path content := attemptIO (IO.FS.writeBinFile path content)
  rename source destination := attemptIO (IO.FS.rename source destination)
  remove path := do
    let _ ← attemptIO (IO.FS.removeFile path)
    return ()

/-- How the command is used. -/
def usage : String :=
  "Usage: " ++ Command.name ++ " <--input <PATH> [--output <PATH>] | --test> [--config <PATH>] "
    ++ "[--max-depth <N>] [--max-nodes <N>] [--escape-strings] [-v]..."

/-- Prints what came of a command line. -/
def tell : Command.Answer → IO Unit
  | .misused _ => IO.eprintln usage
  | .version => IO.println Command.versionLine
  | .help => IO.println usage
  | .ran report verbosity => do
    for notice in report.told verbosity do
      IO.eprintln ("[" ++ notice.level.name ++ "] " ++ notice.message)
    IO.print report.output
    IO.eprint report.complaint

end HexConfig

open HexConfig in
def main (words : List String) : IO UInt32 := do
  let answer ← (Command.answer words : IO Command.Answer)
  tell answer
  return answer.code.toUInt32
