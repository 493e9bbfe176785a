import Wordlang.Syntax.Tree

/-!
# The environment

The host declares by name which functions and globals a program may use. Ids count the names of each sort
in the order of their first declaration and never change.
-/

namespace Wordlang

/-- A function of the host. -/
structure External where
  name : String
  arity : Nat
  kind : FunctionKind
  deriving DecidableEq, Repr

structure Environment where
  functions : List External := []
  globals : List String := []
  deriving DecidableEq, Repr

namespace Environment

def functionId? (env : Environment) (name : String) : Option Nat :=
  env.functions.findIdx? (·.name == name)

/-- Declares a function (`function`). A name that is known keeps its id and gets the new arity and kind. -/
def declareFunction (env : Environment) (name : String) (arity : Nat) (kind : FunctionKind) :
    Nat × Environment :=
  match env.functionId? name with
  | some id => (id, { env with functions := env.functions.set id ⟨name, arity, kind⟩ })
  | none => (env.functions.length, { env with functions := env.functions ++ [⟨name, arity, kind⟩] })

def resolveGlobal? (env : Environment) (name : String) : Option Nat := env.globals.idxOf? name

/-- Declares a global (`global`). A name that is known keeps its id. -/
def declareGlobal (env : Environment) (name : String) : Nat × Environment :=
  match env.resolveGlobal? name with
  | some id => (id, env)
  | none => (env.globals.length, { env with globals := env.globals ++ [name] })

def globalName? (env : Environment) (id : Nat) : Option String := env.globals[id]?

/-- The function of the given name, if it takes the given number of arguments (`resolve_function`). -/
def resolveFunction? (env : Environment) (name : String) (argc : Nat) : Option (Nat × External) := do
  let id ← env.functionId? name
  let f ← env.functions[id]?
  if f.arity = argc then some (id, f) else none

end Environment

end Wordlang
