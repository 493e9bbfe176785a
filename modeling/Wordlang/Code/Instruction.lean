import Wordlang.Word
import Wordlang.Syntax.Tree
import Wordlang.Text.Address

/-!
# Instructions

Instructions take their operands from the operand stack and push at most one result. Jump targets are
absolute addresses into the code.
-/

namespace Wordlang

/-- Where a variable is kept. -/
inductive Slot
  | arg (index : Nat)
  | loc (index : Nat)
  | global (id : Nat)
  deriving DecidableEq, Repr

/-- Operations on the two topmost operands. -/
inductive Arith
  | add
  | sub
  | mul
  | div
  | less
  | greater
  | equal
  | notEqual
  deriving DecidableEq, Repr

namespace Arith

def mnemonic : Arith → String
  | add => "add"
  | sub => "sub"
  | mul => "mul"
  | div => "div"
  | less => "lt"
  | greater => "gt"
  | equal => "eq"
  | notEqual => "ne"

/-- The result for a left and a right operand. -/
def eval : Arith → Word → Word → Except DivisionFault Word
  | add, a, b => .ok (a + b)
  | sub, a, b => .ok (a - b)
  | mul, a, b => .ok (a * b)
  | div, a, b => a.divide b
  | less, a, b => .ok (.ofBool (a < b))
  | greater, a, b => .ok (.ofBool (b < a))
  | equal, a, b => .ok (.ofBool (a = b))
  | notEqual, a, b => .ok (.ofBool (a ≠ b))

end Arith

inductive Instruction
  | push (value : Word)
  | pop
  | load (slot : Slot)
  | store (slot : Slot)
  | neg
  | arith (op : Arith)
  | jump (target : Nat)
  | jumpIfZero (target : Nat)
  | jumpIfNonZero (target : Nat)
  | call (function argc : Nat)
  | callExternal (function argc : Nat) (kind : FunctionKind)
  | ret
  | retValue
  deriving DecidableEq, Repr

namespace Instruction

def text : Instruction → String
  | push value => "push " ++ value.text
  | pop => "pop"
  | load (.arg i) => "ldarg " ++ i.repr
  | store (.arg i) => "starg " ++ i.repr
  | load (.loc i) => "ldloc " ++ i.repr
  | store (.loc i) => "stloc " ++ i.repr
  | load (.global id) => "ldglob " ++ id.repr
  | store (.global id) => "stglob " ++ id.repr
  | neg => "neg"
  | arith op => op.mnemonic
  | jump target => "jmp " ++ addressText target
  | jumpIfZero target => "jz " ++ addressText target
  | jumpIfNonZero target => "jnz " ++ addressText target
  | call f argc => "call #" ++ f.repr ++ " " ++ argc.repr
  | callExternal f argc .func => "callext #" ++ f.repr ++ " " ++ argc.repr
  | callExternal f argc .proc => "callext #" ++ f.repr ++ " " ++ argc.repr ++ " void"
  | ret => "ret"
  | retValue => "retval"

end Instruction

end Wordlang
