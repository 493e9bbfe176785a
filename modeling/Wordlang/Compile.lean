import Wordlang.Check.Verify
import Wordlang.Parser.Program
import Wordlang.Code.Emit

/-!
# Compiling

A program is verified as a whole before any code is emitted.
-/

namespace Wordlang

/-- The image of a program. -/
def Program.compile (p : Program) (env : Environment) : Except CompileError Image := do
  let signatures ← p.verify
  let (code, entries) ← Emit.functions signatures env 0 p
  return ⟨code.toArray, entries.toArray⟩

/-- Why a source text has no image. -/
inductive SourceError
  | parse (error : ParseError)
  | compile (error : CompileError)
  deriving DecidableEq, Repr

namespace SourceError

def message : SourceError → String
  | parse error => error.message
  | compile error => "Compile error: " ++ error.message

end SourceError

/-- The image of a source text. -/
def compileSource (source : String) (env : Environment) : Except SourceError Image := do
  let p ← (Program.parse source).mapError .parse
  (p.compile env).mapError .compile

end Wordlang
