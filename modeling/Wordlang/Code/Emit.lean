import Wordlang.Check.Signature
import Wordlang.Environment
import Wordlang.Code.Image

/-!
# Emitting code: `generate`, `FunctionBuilder`

The code of an expression, a statement or a function is a function of the address at which it starts. The
targets of its jumps follow from the lengths of its parts.

The operators `&&` and `||` jump over their right operand when the left one decides:

    a && b    a; jz F; b; push 0; ne; jmp E; F: push 0; E:
    a || b    a; jnz T; b; push 0; ne; jmp E; T: push 1; E:

The comparison with zero turns the right operand into 0 or 1.
-/

namespace Wordlang

/-- The names that code can refer to: those of a function, of the program and of the host. -/
structure Scope where
  function : Function
  signatures : Signatures
  env : Environment

namespace Scope

/-- What a name means (`resolve`): a parameter, else a local, else a global. -/
def slot (s : Scope) (name : String) : Except CompileError.Cause Slot :=
  match s.function.params.idxOf? name with
  | some i => .ok (.arg i)
  | none =>
    match s.function.locals.idxOf? name with
    | some i => .ok (.loc i)
    | none =>
      match s.env.resolveGlobal? name with
      | some id => .ok (.global id)
      | none => .error (.unresolved name)

/-- The instruction that calls a function with `argc` arguments, and the kind of the function. The program's
own functions come before those of the host. -/
def callee (s : Scope) (name : String) (argc : Nat) : Except CompileError.Cause (Instruction × FunctionKind) :=
  match s.signatures.get? name with
  | some signature =>
    if signature.arity = argc then .ok (.call signature.id argc, signature.kind)
    else .error (.wrongArity name signature.arity argc)
  | none =>
    match s.env.resolveFunction? name argc with
    | some (id, external) => .ok (.callExternal id argc external.kind, external.kind)
    | none => .error (.unresolved name)

end Scope

/-- The operation of an operator that always evaluates both operands. -/
def BinaryOp.strict? : BinaryOp → Option Arith
  | .or => none
  | .and => none
  | .less => some .less
  | .greater => some .greater
  | .equal => some .equal
  | .notEqual => some .notEqual
  | .add => some .add
  | .sub => some .sub
  | .mul => some .mul
  | .div => some .div

namespace Emit

/-- The jump of `&&` or `||` to the place where the left operand has decided. -/
def skipRight (op : BinaryOp) (target : Nat) : Instruction :=
  if op = .or then .jumpIfNonZero target else .jumpIfZero target

/-- The value of `&&` or `||` when the left operand decides. -/
def decided (op : BinaryOp) : Word := .ofBool (op = .or)

mutual

/-- Code that leaves the value of an expression on the stack. -/
def value (s : Scope) (start : Nat) : Expr → Except CompileError.Cause (List Instruction)
  | .num n => return [.push n]
  | .var name => return [.load (← s.slot name)]
  | .unary .identity operand => value s start operand
  | .unary .negate operand => return (← value s start operand) ++ [.neg]
  | .binary op left right => do
    let a ← value s start left
    match op.strict? with
    | some arith =>
      let b ← value s (start + a.length) right
      return a ++ b ++ [.arith arith]
    | none =>
      let b ← value s (start + a.length + 1) right
      let target := start + a.length + b.length + 4
      return a ++ [skipRight op target] ++ b ++
        [.push 0, .arith .notEqual, .jump (target + 1), .push (decided op)]
  | .call name args => do
    let code ← values s start args
    let (call, kind) ← s.callee name args.length
    match kind with
    | .func => return code ++ [call]
    | .proc => throw (.voidValue name)

/-- Code that leaves the values of expressions on the stack, the last one on top. -/
def values (s : Scope) (start : Nat) : List Expr → Except CompileError.Cause (List Instruction)
  | [] => return []
  | e :: es => do
    let a ← value s start e
    let b ← values s (start + a.length) es
    return a ++ b

end

mutual

/-- Code that carries out a statement and leaves the stack as high as before. -/
def statement (s : Scope) (start : Nat) : Stmt → Except CompileError.Cause (List Instruction)
  | .expr (.call name args) => do
    let code ← values s start args
    let (call, kind) ← s.callee name args.length
    match kind with
    | .func => return code ++ [call, .pop]
    | .proc => return code ++ [call]
  | .expr e => return (← value s start e) ++ [.pop]
  | .set target e => do
    let code ← value s start e
    return code ++ [.store (← s.slot target)]
  | .ret none => return [.ret]
  | .ret (some e) => return (← value s start e) ++ [.retValue]
  | .ifThen test body => do
    let a ← value s start test
    let b ← block s (start + a.length + 1) body
    return a ++ [.jumpIfZero (start + a.length + b.length + 1)] ++ b
  | .ifElse test yes no => do
    let a ← value s start test
    let b ← block s (start + a.length + 1) yes
    let target := start + a.length + b.length + 2
    let c ← block s target no
    return a ++ [.jumpIfZero target] ++ b ++ [.jump (target + c.length)] ++ c

def block (s : Scope) (start : Nat) : List Stmt → Except CompileError.Cause (List Instruction)
  | [] => return []
  | stmt :: rest => do
    let a ← statement s start stmt
    let b ← block s (start + a.length) rest
    return a ++ b

end

/-- What stands behind a body that does not end with a return statement. -/
def terminator (f : Function) : List Instruction :=
  match f.body.getLast?, f.kind with
  | some (.ret _), _ => []
  | _, .func => [.push 0, .retValue]
  | _, .proc => [.ret]

/-- The code of a function (`build`). -/
def function (signatures : Signatures) (env : Environment) (start : Nat) (f : Function) :
    Except CompileError (List Instruction) := inFunction f do
  return (← block ⟨f, signatures, env⟩ start f.body) ++ terminator f

def entry (f : Function) (address : Nat) : Entry :=
  ⟨f.name, f.params.length, f.locals.length, f.kind, address⟩

/-- The code and the entries of functions, the first of which starts at the given address (`generate`). -/
def functions (signatures : Signatures) (env : Environment) :
    Nat → List Function → Except CompileError (List Instruction × List Entry)
  | _, [] => return ([], [])
  | start, f :: fs => do
    let a ← function signatures env start f
    let (b, entries) ← functions signatures env (start + a.length) fs
    return (a ++ b, entry f start :: entries)

end Emit

end Wordlang
