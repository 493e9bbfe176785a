import Wordlang.Word
import Wordlang.Environment
import Wordlang.Machine.Fault

/-!
# Hosts: `call_external`, `load_global`, `store_global`

A host runs the external functions and keeps the globals of a program. `Bindings` is the host made for an
environment: a function or nothing for each external, a value for each global, and a world, which the
functions read and change.
-/

namespace Wordlang

/-- What a machine asks of its host. A host may change also when it fails. -/
class Host (η : Type) where
  callExternal : η → (id : Nat) → (args : List Word) → Except Fault Word × η
  loadGlobal : η → (id : Nat) → Except Fault Word × η
  storeGlobal : η → (id : Nat) → (value : Word) → Except Fault Unit × η

/-- An external function: a value and a new world for each list of arguments and each world. -/
abbrev ExternalBody (σ : Type) := List Word → σ → Word × σ

structure Bindings (σ : Type) where
  functions : List (String × Option (ExternalBody σ))
  globals : List (String × Word)
  world : σ

namespace Bindings

variable {σ : Type}

/-- Nothing bound and all globals zero. -/
def ofEnvironment (env : Environment) (world : σ) : Bindings σ :=
  ⟨env.functions.map (·.name, none), env.globals.map (·, 0), world⟩

/-- How messages speak of an id without a name. -/
def idText (id : Nat) : String := "#" ++ id.repr

/-- Binds a declared function, whose id it gives. -/
def bind (b : Bindings σ) (name : String) (body : ExternalBody σ) : Except Fault (Nat × Bindings σ) :=
  match b.functions.findIdx? (·.1 == name) with
  | some id => .ok (id, { b with functions := b.functions.set id (name, some body) })
  | none => .error (.undeclaredExternal name)

def setGlobal (b : Bindings σ) (name : String) (value : Word) : Except Fault (Bindings σ) :=
  match b.globals.findIdx? (·.1 == name) with
  | some id => .ok { b with globals := b.globals.set id (name, value) }
  | none => .error (.undeclaredGlobal name)

def global? (b : Bindings σ) (name : String) : Option Word := b.globals.lookup name

def callExternal (b : Bindings σ) (id : Nat) (args : List Word) : Except Fault Word × Bindings σ :=
  match b.functions[id]? with
  | some (_, some body) =>
    let (value, world) := body args b.world
    (.ok value, { b with world })
  | some (name, none) => (.error (.unboundExternal name), b)
  | none => (.error (.unboundExternal (idText id)), b)

def loadGlobal (b : Bindings σ) (id : Nat) : Except Fault Word × Bindings σ :=
  match b.globals[id]? with
  | some (_, value) => (.ok value, b)
  | none => (.error (.undeclaredGlobal (idText id)), b)

def storeGlobal (b : Bindings σ) (id : Nat) (value : Word) : Except Fault Unit × Bindings σ :=
  match b.globals[id]? with
  | some (name, _) => (.ok (), { b with globals := b.globals.set id (name, value) })
  | none => (.error (.undeclaredGlobal (idText id)), b)

instance : Host (Bindings σ) where
  callExternal := callExternal
  loadGlobal := loadGlobal
  storeGlobal := storeGlobal

/-- A line that tells which functions are bound and what the globals hold. -/
def summary (b : Bindings σ) : String :=
  let functions := b.functions.map fun (name, body) =>
    "(\"" ++ name ++ "\", " ++ (if body.isSome then "true" else "false") ++ ")"
  let globals := b.globals.map fun (name, value) => "(\"" ++ name ++ "\", " ++ value.text ++ ")"
  "Bindings \x7b functions: [" ++ ", ".intercalate functions ++ "], globals: [" ++
    ", ".intercalate globals ++ "] \x7d"

end Bindings

end Wordlang
