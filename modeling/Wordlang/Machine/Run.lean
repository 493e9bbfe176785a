import Wordlang.Machine.State

/-!
# Running code: `invoke`, `run`

A machine is an image with a limit on the number of nested calls. `step` carries out one instruction and
`run` as many as needed, up to a bound; `none` is a run that the bound has cut off. `call` runs a function
of the image by name.
-/

namespace Wordlang

structure Machine where
  image : Image
  maxCallDepth : Nat := 4096

/-- What an instruction leads to: the address of the next one, or the end of the run. -/
inductive Next
  | goto (pc : Nat)
  | done (result : Option Word)
  deriving DecidableEq, Repr

/-- A state in which the run goes on at `pc`, or the end of the run with its result. -/
inductive Step (η : Type)
  | next (pc : Nat) (s : State η)
  | halt (result : Except Fault (Option Word)) (s : State η)

namespace Machine

open ExecM

variable {η : Type} [Host η]

def load (pc : Nat) : Slot → ExecM η Word
  | .arg i => loadArg pc i
  | .loc i => loadLocal pc i
  | .global id => ask (Host.loadGlobal · id)

def store (pc : Nat) (value : Word) : Slot → ExecM η Unit
  | .arg i => storeArg pc i value
  | .loc i => storeLocal pc i value
  | .global id => ask (Host.storeGlobal · id value)

/-- An operation of the instruction at `pc` on two words. -/
def calculate (pc : Nat) (op : Arith) (left right : Word) : ExecM η Word :=
  match op.eval left right with
  | .ok value => return value
  | .error .byZero => throw (.divisionByZero pc)
  | .error .overflow => throw (.overflow pc)

/-- Enters the function with the given id and gives the address of its code. -/
def enterFunction (m : Machine) (pc id argc : Nat) : ExecM η Nat := do
  if m.maxCallDepth ≤ (← get).frames.size then
    throw (.callDepthExceeded m.maxCallDepth)
  else
    match m.image.entries[id]? with
    | none => throw (.invalidAddress pc)
    | some entry =>
      if entry.params ≠ argc then
        throw (.wrongArgumentCount entry.name entry.params argc)
      else
        let base ← operandsBase pc argc
        enter (.ofEntry entry (some (pc + 1)) base)
        return entry.address

/-- Has the host run an external function on the topmost operands, which its value replaces. -/
def callHost (pc id argc : Nat) (kind : FunctionKind) : ExecM η Unit := do
  let args ← operandsFrom (← operandsBase pc argc)
  let value ← ask (Host.callExternal · id args)
  match kind with
  | .func => push value
  | .proc => return ()

def returnFrom (pc : Nat) (result : Option Word) : ExecM η Next := do
  match ← leave pc result with
  | some address => return .goto address
  | none => return .done result

/-- Carries out an instruction that stands at `pc`: one turn of the loop of `run`. -/
def exec (m : Machine) (pc : Nat) : Instruction → ExecM η Next
  | .push value => do
    push value
    return .goto (pc + 1)
  | .pop => do
    let _ ← operand pc
    return .goto (pc + 1)
  | .load slot => do
    push (← load pc slot)
    return .goto (pc + 1)
  | .store slot => do
    let value ← operand pc
    store pc value slot
    return .goto (pc + 1)
  | .neg => do
    push (-(← operand pc))
    return .goto (pc + 1)
  | .arith op => do
    let right ← operand pc
    let left ← operand pc
    push (← calculate pc op left right)
    return .goto (pc + 1)
  | .jump target => return .goto target
  | .jumpIfZero target => do
    if (← operand pc) = 0 then return .goto target else return .goto (pc + 1)
  | .jumpIfNonZero target => do
    if (← operand pc) = 0 then return .goto (pc + 1) else return .goto target
  | .call id argc => do
    return .goto (← m.enterFunction pc id argc)
  | .callExternal id argc kind => do
    callHost pc id argc kind
    return .goto (pc + 1)
  | .ret => returnFrom pc none
  | .retValue => do
    let value ← operand pc
    returnFrom pc (some value)

/-- One step of a run. -/
def step (m : Machine) (pc : Nat) (s : State η) : Step η :=
  match m.image.code[pc]? with
  | none => .halt (.error (.invalidAddress pc)) s
  | some instruction =>
    match m.exec pc instruction s with
    | .ok (.goto pc) s => .next pc s
    | .ok (.done result) s => .halt (.ok result) s
    | .error fault s => .halt (.error fault) s

/-- Runs for at most the given number of steps. -/
def run (m : Machine) : (steps pc : Nat) → State η → Option (Except Fault (Option Word) × State η)
  | 0, _, _ => none
  | steps + 1, pc, s =>
    match m.step pc s with
    | .next pc s => m.run steps pc s
    | .halt result s => some (result, s)

/-- Calls a function of the image and runs it to its end (`invoke`). A fault leaves an empty stack and no frames. -/
def call (m : Machine) (steps : Nat) (name : String) (args : List Word) (s : State η) :
    Option (Except Fault (Option Word) × State η) :=
  match m.image.find? name with
  | none => some (.error (.unknownFunction name), s)
  | some (_, entry) =>
    if args.length ≠ entry.params then
      some (.error (.wrongArgumentCount name entry.params args.length), s)
    else
      match m.run steps entry.address ⟨s.host, args.toArray, #[.ofEntry entry none 0]⟩ with
      | some (.error fault, s) => some (.error fault, ⟨s.host, #[], #[]⟩)
      | result => result

end Machine

end Wordlang
