import Wordlang.CommandLine.Session

/-!
# The command

Reads the file that the arguments name, holds a session on it and writes what the session leaves behind.
-/

open Wordlang.CommandLine

/-- Why a file could not be read. -/
def readErrorOf : IO.Error → ReadError
  | .noFileOrDirectory .. => .notFound
  | .inappropriateType _ 21 _ => .isDirectory
  | e => .other (toString e)

/-- The text of a file. -/
def readSource (path : String) : IO (Except ReadError String) := do
  try
    return sourceText (← IO.FS.readBinFile path)
  catch e =>
    return .error (readErrorOf e)

/-- More steps than can be carried out. -/
def unlimited : Nat := 4611686018427387904

def main (args : List String) : IO UInt32 := do
  let report ← match Options.ofArgs args with
    | .error usage => pure usage.report
    | .ok options => pure ((session options unlimited (← readSource options.file)).getD { exit := 1 })
  (← IO.getStdout).putStr report.stdout
  (← IO.getStderr).putStr report.stderr
  return report.exit
