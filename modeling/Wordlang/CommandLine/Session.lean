import Wordlang.CommandLine.Options
import Wordlang.Code.Listing
import Wordlang.Compile
import Wordlang.Machine.Run

/-!
# Sessions

A session compiles a source file, lists its code if asked to, and runs its entry function. Programs have
two functions to write with and the globals that the command line declares.
-/

namespace Wordlang.CommandLine

/-- Why a file has no source text. -/
inductive ReadError
  | notFound
  | isDirectory
  | notUtf8
  | other (reason : String)
  deriving DecidableEq, Repr

namespace ReadError

def message : ReadError → String
  | notFound => "No such file or directory (os error 2)"
  | isDirectory => "Is a directory (os error 21)"
  | notUtf8 => "stream did not contain valid UTF-8"
  | other reason => reason

end ReadError

/-- The source text in the bytes of a file. -/
def sourceText (bytes : ByteArray) : Except ReadError String :=
  match Utf8.decode? bytes with
  | some source => .ok source
  | none => .error .notUtf8

/-- What a session leaves behind. -/
structure Report where
  exit : UInt32 := 0
  stdout : String := ""
  stderr : String := ""
  deriving DecidableEq, Repr

namespace Report

def say (r : Report) (line : String) : Report := { r with stderr := r.stderr ++ line ++ "\n" }

/-- Ends a session that has failed. -/
def failed (r : Report) (line : String) : Report := { r.say line with exit := 1 }

end Report

/-! ## Programs -/

def separatorLine : String := "_____________________"

/-- Writes the first argument on a line of its own. -/
def print : ExternalBody String := fun args out => (0, out ++ (args.headD 0).text ++ "\n")

/-- Writes a line that marks the end of a section. -/
def endSection : ExternalBody String := fun _ out => (0, out ++ separatorLine ++ "\n")

/-- What programs may use. -/
def environment (o : Options) : Environment :=
  let env := (Environment.declareFunction {} "Print" 1 .proc).2
  let env := (env.declareFunction "EndSection" 0 .proc).2
  o.globals.foldl (fun env g => (env.declareGlobal g.1).2) env

/-- The host of a program. Its world is the text that the program has written. -/
def bindings (o : Options) (out : String) : Except Fault (Bindings String) := do
  let b := Bindings.ofEnvironment (environment o) out
  let (_, b) ← b.bind "Print" print
  let (_, b) ← b.bind "EndSection" endSection
  o.globals.foldlM (fun b g => b.setGlobal g.1 g.2) b

/-- Tells the result and the globals at the end. -/
def conclude (o : Options) (result : Option Word) (b : Bindings String) (r : Report) : Report :=
  let r := r.say "Execution completed successfully."
  let r := match result with
    | some value => r.say (o.entry ++ " returned " ++ value.text)
    | none => r
  o.globals.foldl (fun r g =>
    match b.global? g.1 with
    | some value => r.say ("Global " ++ g.1 ++ " = " ++ value.text)
    | none => r) r

/-- Runs the entry function for at most the given number of steps. -/
def execute (o : Options) (steps : Nat) (image : Image) (r : Report) : Option Report :=
  match bindings o r.stdout with
  | .error fault => some (r.failed fault.message)
  | .ok b => do
    let r := r.say ("Executing " ++ o.entry ++ "...")
    let machine : Machine := { image }
    let (result, s) ← machine.call steps o.entry o.args { host := b }
    let r := { r with stdout := s.host.world }
    match result with
    | .ok value => return conclude o value s.host r
    | .error fault => return r.failed ("Runtime error: " ++ fault.message)

/-! ## Sessions -/

/-- A session with the given options on the text of their file. -/
def session (o : Options) (steps : Nat) (source : Except ReadError String) : Option Report :=
  match source with
  | .error e => some (Report.failed {} ("Error: Cannot read '" ++ o.file ++ "': " ++ e.message))
  | .ok source =>
    let r := Report.say {} ("Compiling " ++ o.file ++ "...")
    match compileSource source (environment o) with
    | .error e => some (r.failed e.message)
    | .ok image =>
      let r := r.say ("Compiled " ++ image.code.size.repr ++ " instructions across " ++
        image.entries.size.repr ++ " functions.")
      let r := if o.emit then { r with stdout := image.listing } else r
      if o.noRun then some r else execute o steps image r

/-- The text for `--version`. -/
def versionText : String := "stackc 0.1.0\n"

/-- The text for `--help`. -/
def helpText : String :=
  "stackc - compile a stack-language program and run it on the reference machine\n\n" ++
  "Usage: stackc [OPTIONS] <FILE> [ARGS]...\n\n" ++
  "Arguments:\n" ++
  "  <FILE>     Source file to compile\n" ++
  "  [ARGS]...  Integer arguments passed to the entry function\n\n" ++
  "Options:\n" ++
  "  -e, --entry <ENTRY>        Function to invoke after compiling [default: Main]\n" ++
  "      --emit                 Print the disassembled instruction stream to stdout\n" ++
  "      --no-run               Compile only; do not execute the entry function\n" ++
  "  -g, --global <NAME=VALUE>  Declare a global and its initial value (repeatable)\n" ++
  "  -h, --help                 Print help\n" ++
  "  -V, --version              Print version\n"

namespace Usage

def message : Usage → String
  | helpAsked => helpText
  | versionAsked => versionText
  | missingFile => "error: the following required arguments were not provided:\n  <FILE>\n"
  | missingValue => "error: a value is required but none was supplied\n"
  | repeatedOption => "error: an argument cannot be used multiple times\n"
  | needlessValue => "error: unexpected value found; no more were expected\n"
  | unknownOption => "error: unexpected argument found\n"
  | invalidGlobal e => "error: invalid value for '--global <NAME=VALUE>': " ++ e.message ++ "\n"
  | invalidArgument e => "error: invalid value for '[ARGS]...': " ++ e.message ++ "\n"

/-- What is left behind when arguments give no options. -/
def report : Usage → Report
  | helpAsked => { stdout := helpText }
  | versionAsked => { stdout := versionText }
  | usage => { exit := 2, stderr := usage.message }

end Usage

end Wordlang.CommandLine
