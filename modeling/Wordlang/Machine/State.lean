import Wordlang.Code.Image
import Wordlang.Machine.Host

/-!
# Machine states

All functions share one operand stack. A frame marks where the arguments of its function start on it; the
operands of the function lie above the arguments, and it cannot reach below them.
-/

namespace Wordlang

structure Frame where
  /-- Where the caller goes on; the frame that a run starts with has none. -/
  returnAddress : Option Nat
  base : Nat
  argc : Nat
  locals : Array Word
  deriving DecidableEq, Repr

namespace Frame

/-- The frame of a function at the start of its code: its locals are zero. -/
def ofEntry (entry : Entry) (returnAddress : Option Nat) (base : Nat) : Frame :=
  ⟨returnAddress, base, entry.params, Array.replicate entry.locals 0⟩

/-- The height of the stack below the operands. -/
def floor (frame : Frame) : Nat := frame.base + frame.argc

end Frame

/-- The host, the operand stack and the frames of the calls that have not returned, the innermost last. -/
structure State (η : Type) where
  host : η
  stack : Array Word := #[]
  frames : Array Frame := #[]

/-- Parts of instructions. A fault leaves a state as well, because the host may have changed. -/
abbrev ExecM (η : Type) := EStateM Fault (State η)

namespace ExecM

variable {η α : Type}

def push (value : Word) : ExecM η Unit := modify fun s => { s with stack := s.stack.push value }

/-- Takes the topmost operand of the instruction at `pc` (`pop`). -/
def operand (pc : Nat) : ExecM η Word := fun s =>
  match s.frames.back? with
  | none => .error (.invalidAddress pc) s
  | some frame =>
    if s.stack.size ≤ frame.floor then .error (.stackUnderflow pc) s
    else
      match s.stack.back? with
      | some value => .ok value { s with stack := s.stack.pop }
      | none => .error (.stackUnderflow pc) s

/-- The height of the stack below the topmost `count` operands (`operands_base`). -/
def operandsBase (pc count : Nat) : ExecM η Nat := fun s =>
  match s.frames.back? with
  | none => .error (.invalidAddress pc) s
  | some frame =>
    if frame.floor + count ≤ s.stack.size then .ok (s.stack.size - count) s
    else .error (.stackUnderflow pc) s

/-- Takes all operands from a height of the stack on, the topmost last. -/
def operandsFrom (base : Nat) : ExecM η (List Word) := fun s =>
  .ok (s.stack.extract base).toList { s with stack := s.stack.shrink base }

/-- Reads where `arg_index` points. -/
def loadArg (pc index : Nat) : ExecM η Word := fun s =>
  match s.frames.back? with
  | none => .error (.invalidAddress pc) s
  | some frame =>
    if index < frame.argc then .ok (s.stack.getD (frame.base + index) 0) s
    else .error (.invalidSlot pc index) s

def storeArg (pc index : Nat) (value : Word) : ExecM η Unit := fun s =>
  match s.frames.back? with
  | none => .error (.invalidAddress pc) s
  | some frame =>
    if index < frame.argc then .ok () { s with stack := s.stack.setIfInBounds (frame.base + index) value }
    else .error (.invalidSlot pc index) s

def loadLocal (pc index : Nat) : ExecM η Word := fun s =>
  match s.frames.back? with
  | none => .error (.invalidAddress pc) s
  | some frame =>
    match frame.locals[index]? with
    | some value => .ok value s
    | none => .error (.invalidSlot pc index) s

def storeLocal (pc index : Nat) (value : Word) : ExecM η Unit := fun s =>
  match s.frames.back? with
  | none => .error (.invalidAddress pc) s
  | some frame =>
    if index < frame.locals.size then
      let frame := { frame with locals := frame.locals.setIfInBounds index value }
      .ok () { s with frames := s.frames.pop.push frame }
    else .error (.invalidSlot pc index) s

/-- Asks the host. -/
def ask (request : η → Except Fault α × η) : ExecM η α := fun s =>
  match request s.host with
  | (.ok a, host) => .ok a { s with host }
  | (.error fault, host) => .error fault { s with host }

def enter (frame : Frame) : ExecM η Unit := modify fun s => { s with frames := s.frames.push frame }

/-- Leaves the innermost frame and gives the address where its caller goes on. The caller gets the result;
without a caller, there is no one to get it. -/
def leave (pc : Nat) (result : Option Word) : ExecM η (Option Nat) := fun s =>
  match s.frames.back? with
  | none => .error (.invalidAddress pc) s
  | some frame =>
    let stack := s.stack.shrink frame.base
    let frames := s.frames.pop
    match frame.returnAddress, result with
    | some address, some value => .ok (some address) { s with stack := stack.push value, frames }
    | returnAddress, _ => .ok returnAddress { s with stack, frames }

end ExecM

end Wordlang
