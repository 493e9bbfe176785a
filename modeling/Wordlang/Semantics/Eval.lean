import Wordlang.Syntax.Tree
import Wordlang.Machine.Host

/-!
# The meaning of programs

What a program does, read off its tree: operands and arguments from left to right, parameters by value,
locals zero whenever a function starts, and a bound on how deeply calls nest. A tree has no addresses, so
its faults carry the address 0; `Fault.unplaced` brings the faults of a machine to that form.
-/

namespace Wordlang

/-- The fault without the address of an instruction. -/
def Fault.unplaced : Fault → Fault
  | .stackUnderflow _ => .stackUnderflow 0
  | .divisionByZero _ => .divisionByZero 0
  | .overflow _ => .overflow 0
  | .invalidAddress _ => .invalidAddress 0
  | .invalidSlot _ slot => .invalidSlot 0 slot
  | fault => fault

/-- The variables of one activation of a function. -/
structure Activation where
  params : List (String × Word)
  locals : List (String × Word)
  deriving DecidableEq, Repr

namespace Activation

/-- The activation of a function at its start. -/
def start (f : Function) (args : List Word) : Activation :=
  ⟨f.params.zip args, f.locals.map (·, 0)⟩

/-- The value of a variable. A parameter comes before a local. -/
def get? (a : Activation) (name : String) : Option Word :=
  a.params.lookup name <|> a.locals.lookup name

/-- Gives a name a new value where it stands first. -/
def assign (name : String) (value : Word) : List (String × Word) → List (String × Word)
  | [] => []
  | (x, v) :: rest => if x = name then (x, value) :: rest else (x, v) :: assign name value rest

def set (a : Activation) (name : String) (value : Word) : Activation :=
  if (a.params.lookup name).isSome then { a with params := assign name value a.params }
  else { a with locals := assign name value a.locals }

end Activation

/-- How statements end: behind the last one, or with a return. -/
inductive Completion
  | through (a : Activation)
  | returned (value : Option Word)
  deriving DecidableEq, Repr

/-- Evaluation over a host. A fault leaves a host as well. -/
abbrev EvalM (η : Type) := EStateM Fault η

/-- What the body of a function can see besides its variables. -/
structure Surroundings (η : Type) where
  program : Program
  env : Environment
  call : Function → List Word → EvalM η (Option Word)

namespace Eval

variable {η : Type} [Host η]

def ask {α : Type} (request : η → Except Fault α × η) : EvalM η α := fun host =>
  match request host with
  | (.ok a, host) => .ok a host
  | (.error fault, host) => .error fault host

def read (c : Surroundings η) (a : Activation) (name : String) : EvalM η Word :=
  match a.get? name with
  | some value => return value
  | none =>
    match c.env.resolveGlobal? name with
    | some id => ask (Host.loadGlobal · id)
    | none => throw (.undeclaredGlobal name)

def write (c : Surroundings η) (a : Activation) (name : String) (value : Word) : EvalM η Activation :=
  match a.get? name with
  | some _ => return a.set name value
  | none =>
    match c.env.resolveGlobal? name with
    | some id => do
      ask (Host.storeGlobal · id value)
      return a
    | none => throw (.undeclaredGlobal name)

/-- Calls a function of the program, else one of the host. -/
def callNamed (c : Surroundings η) (name : String) (args : List Word) : EvalM η (Option Word) :=
  match c.program.find? (·.name == name) with
  | some f => c.call f args
  | none =>
    match c.env.resolveFunction? name args.length with
    | some (id, external) => do
      let value ← ask (Host.callExternal · id args)
      match external.kind with
      | .func => return some value
      | .proc => return none
    | none => throw (.unknownFunction name)

/-- What a condition is worth. -/
def truth (p : Prop) [Decidable p] : Word := if p then 1 else 0

/-- The quotient of two words, toward zero. There is none by zero, and `2^63` is no word. -/
def quotient (left right : Word) : EvalM η Word :=
  if right = 0 then throw (.divisionByZero 0)
  else if left = Int64.minValue ∧ right = -1 then throw (.overflow 0)
  else return Int64.ofInt (left.toInt.tdiv right.toInt)

mutual

def expr (c : Surroundings η) (a : Activation) : Expr → EvalM η Word
  | .num n => return n
  | .var name => read c a name
  | .unary .identity e => expr c a e
  | .unary .negate e => return -(← expr c a e)
  | .binary .or left right => do
    if (← expr c a left) ≠ 0 then return 1 else return truth ((← expr c a right) ≠ 0)
  | .binary .and left right => do
    if (← expr c a left) = 0 then return 0 else return truth ((← expr c a right) ≠ 0)
  | .binary op left right => do
    let x ← expr c a left
    let y ← expr c a right
    match op with
    | .less => return truth (x < y)
    | .greater => return truth (y < x)
    | .equal => return truth (x = y)
    | .notEqual => return truth (x ≠ y)
    | .add => return x + y
    | .sub => return x - y
    | .mul => return x * y
    | _ => quotient x y
  | .call name args => do
    match ← callNamed c name (← exprs c a args) with
    | some value => return value
    | none => throw (.unknownFunction name)

def exprs (c : Surroundings η) (a : Activation) : List Expr → EvalM η (List Word)
  | [] => return []
  | e :: es => do
    let x ← expr c a e
    return x :: (← exprs c a es)

end

mutual

def stmt (c : Surroundings η) (a : Activation) : Stmt → EvalM η Completion
  | .expr (.call name args) => do
    let _ ← callNamed c name (← exprs c a args)
    return .through a
  | .expr e => do
    let _ ← expr c a e
    return .through a
  | .set target e => do
    return .through (← write c a target (← expr c a e))
  | .ret none => return .returned none
  | .ret (some e) => return .returned (some (← expr c a e))
  | .ifThen test body => do
    if (← expr c a test) = 0 then return .through a else block c a body
  | .ifElse test yes no => do
    if (← expr c a test) = 0 then block c a no else block c a yes

def block (c : Surroundings η) (a : Activation) : List Stmt → EvalM η Completion
  | [] => return .through a
  | s :: rest => do
    match ← stmt c a s with
    | .through a => block c a rest
    | .returned value => return .returned value

end

/-- Runs a function from which calls can nest `room` deep. Behind the last statement it returns nothing. -/
def function (program : Program) (env : Environment) (limit : Nat) :
    (room : Nat) → Function → List Word → EvalM η (Option Word)
  | room, f, args => do
    let call := match room with
      | 0 => fun _ _ => throw (.callDepthExceeded limit)
      | room + 1 => function program env limit room
    match ← block ⟨program, env, call⟩ (.start f args) f.body with
    | .through _ => return none
    | .returned value => return value

end Eval

/-- Calls a function of a program by name. The call itself counts toward the limit on nested calls, but is
never refused. -/
def Program.eval {η : Type} [Host η] (program : Program) (env : Environment) (limit : Nat) (name : String)
    (args : List Word) : EvalM η (Option Word) :=
  match program.find? (·.name == name) with
  | none => throw (.unknownFunction name)
  | some f =>
    if args.length ≠ f.params.length then throw (.wrongArgumentCount name f.params.length args.length)
    else Eval.function program env limit (limit - 1) f args

end Wordlang
