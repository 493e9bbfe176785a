import Wordlang.Check.Signature

/-!
# Verification: `verify`, `check_names`, `FunctionVerifier`

Functions are verified in the order of their declaration: its name is new, its parameters and locals have
distinct names, every return fits its kind, no statement follows one that always returns, and if it
produces a value, its body always returns.
-/

namespace Wordlang

/-- The name that `check_names` finds: the first that stands in the list before or is in `seen`. -/
def firstRepeated? (seen : List String) : List String → Option String
  | [] => none
  | name :: names => if name ∈ seen then some name else firstRepeated? (name :: seen) names

mutual

/-- Whether every path through a statement ends in a return. -/
def Stmt.returns (kind : FunctionKind) : Stmt → Except CompileError.Cause Bool
  | .expr _ => return false
  | .set _ _ => return false
  | .ret value => if value.isSome = (kind = .func) then return true else throw (.wrongReturn kind)
  | .ifThen _ body => do
    let _ ← Stmt.blockReturns kind body
    return false
  | .ifElse _ yes no => do
    let a ← Stmt.blockReturns kind yes
    let b ← Stmt.blockReturns kind no
    return a && b

/-- Whether every path through a block ends in a return. Nothing may follow a statement of which this
is true. -/
def Stmt.blockReturns (kind : FunctionKind) : List Stmt → Except CompileError.Cause Bool
  | [] => return false
  | s :: rest => do
    if ← s.returns kind then
      if rest.isEmpty then return true else throw .unreachableCode
    else
      Stmt.blockReturns kind rest

end

/-- Checks a function on its own. -/
def Function.verify (f : Function) : Except CompileError Unit := inFunction f do
  match firstRepeated? [] (f.params ++ f.locals) with
  | some name => throw (.duplicateName name)
  | none =>
    let returns ← Stmt.blockReturns f.kind f.body
    if f.kind = .func ∧ ¬ returns then throw .incompleteReturns else return ()

/-- Verifies a program and gives the signatures of its functions. -/
def Program.verify (p : Program) : Except CompileError Signatures :=
  p.foldlM (fun table f => do
    let (_, table) ← table.register f
    f.verify
    return table) []

end Wordlang
