import Wordlang.Proofs.Compiler.Jumps

/-!
# Emitting code with labels: `jump`, `place`

In the code of an expression or a statement the targets of jumps follow from the lengths of the parts. Here the code is
emitted once more, into a list that grows at its end. A jump is emitted before its target is known, and a label keeps
its address. When the label is placed, the jump is patched where it stands. A patch might hit an instruction that was
there before, or one of another label, or an address at which there is none. It does nothing of the kind: what was there
stays, and behind it comes the code with computed targets, which is the same at every address but for these targets.

Main statements: `BuildM.appends_relocated`, and `Program.build_eq_compile` for whole programs.
-/

namespace Wordlang

/-! ## Moving code -/

/-- Changes the target of a jump. -/
def Instruction.mapTarget (f : Nat → Nat) : Instruction → Instruction
  | .jump target => .jump (f target)
  | .jumpIfZero target => .jumpIfZero (f target)
  | .jumpIfNonZero target => .jumpIfNonZero (f target)
  | i => i

theorem Instruction.mapTarget_eq_self {i : Instruction} (h : i.target? = none) (f : Nat → Nat) : i.mapTarget f = i := by
  cases i with
  | jump | jumpIfZero | jumpIfNonZero => cases h
  | _ => rfl

/-- Code whose jumps lead `n` addresses further. -/
def relocate (n : Nat) (code : List Instruction) : List Instruction := code.map (.mapTarget (· + n))

section

variable (n : Nat) (code code' : List Instruction)

@[simp] theorem length_relocate : (relocate n code).length = code.length := List.length_map _

@[simp] theorem relocate_append : relocate n (code ++ code') = relocate n code ++ relocate n code' := List.map_append

end

/-- The jump that `make` makes gets another target by making it for that target. -/
def Retargets (make : Nat → Instruction) : Prop :=
  ∀ (f : Nat → Nat) (target : Nat), (make target).mapTarget f = make (f target)

theorem Emit.skipRight_retargets (op : BinaryOp) : Retargets (skipRight op) := by
  intro f target
  unfold skipRight
  split <;> rfl

/-! ## Emission -/

/-- Emission into a list of instructions; `none` is a patch at an address that is not in the list. -/
abbrev BuildM := ExceptT CompileError.Cause (StateT (List Instruction) Option)

/-- The addresses of jumps to a place that is not known yet. -/
structure Label where
  sites : List Nat := []

namespace BuildM

def emit (i : Instruction) : BuildM Unit := fun code => some (.ok (), code ++ [i])

def emitAll : List Instruction → BuildM Unit
  | [] => return
  | i :: is => do
    emit i
    emitAll is

/-- What a name has been found to mean. -/
def find {α : Type} (found : Except CompileError.Cause α) : BuildM α := fun code => some (found, code)

/-- The address of the next instruction. -/
def here : BuildM Nat := fun code => some (.ok code.length, code)

/-- A jump whose target is set when the label is placed. -/
def jump (make : Nat → Instruction) (label : Label) : BuildM Label := do
  let site ← here
  emit (make 0)
  return ⟨label.sites ++ [site]⟩

/-- Sets the target of the jump at an address. -/
def patch (target site : Nat) : BuildM Unit := fun code =>
  if site < code.length then some (.ok (), code.modify site (.mapTarget fun _ => target)) else none

def patchAll (target : Nat) : List Nat → BuildM Unit
  | [] => return
  | site :: sites => do
    patch target site
    patchAll target sites

/-- Makes the jumps of a label lead to the next instruction. -/
def place (label : Label) : BuildM Unit := do
  let target ← here
  patchAll target label.sites

/-- Code with a jump over it. -/
def skip (make : Nat → Instruction) (body : BuildM Unit) : BuildM Unit := do
  let ending ← jump make {}
  body
  place ending

/-- Two pieces of code, of which the second is run if the jump is taken and the first otherwise. -/
def fork (make : Nat → Instruction) (first second : BuildM Unit) : BuildM Unit := do
  let otherwise ← jump make {}
  first
  let ending ← jump .jump {}
  place otherwise
  second
  place ending

/-- A call behind the code of its arguments, and the kind of the function. -/
def call (s : Scope) (name : String) (argc : Nat) (args : BuildM Unit) : BuildM FunctionKind := do
  args
  let (call, kind) ← find (s.callee name argc)
  emit call
  return kind

mutual

def value (s : Scope) : Expr → BuildM Unit
  | .num n => emit (.push n)
  | .var name => do
    let slot ← find (s.slot name)
    emit (.load slot)
  | .unary .identity operand => value s operand
  | .unary .negate operand => do
    value s operand
    emit .neg
  | .binary op left right => do
    value s left
    match op.strict? with
    | some arith =>
      value s right
      emit (.arith arith)
    | none =>
      let normalised := do
        value s right
        emitAll [.push 0, .arith .notEqual]
      fork (Emit.skipRight op) normalised (emit (.push (Emit.decided op)))
  | .call name args => do
    match ← call s name args.length (values s args) with
    | .func => return
    | .proc => throw (.voidValue name)

def values (s : Scope) : List Expr → BuildM Unit
  | [] => return
  | e :: es => do
    value s e
    values s es

end

mutual

def statement (s : Scope) : Stmt → BuildM Unit
  | .expr (.call name args) => do
    match ← call s name args.length (values s args) with
    | .func => emit .pop
    | .proc => return
  | .expr e => do
    value s e
    emit .pop
  | .set target e => do
    value s e
    let slot ← find (s.slot target)
    emit (.store slot)
  | .ret none => emit .ret
  | .ret (some e) => do
    value s e
    emit .retValue
  | .ifThen test body => do
    value s test
    skip .jumpIfZero (block s body)
  | .ifElse test yes no => do
    value s test
    fork .jumpIfZero (block s yes) (block s no)

def block (s : Scope) : List Stmt → BuildM Unit
  | [] => return
  | stmt :: rest => do
    statement s stmt
    block s rest

end

def function (s : Scope) : BuildM Unit := do
  block s s.function.body
  emitAll (Emit.terminator s.function)

/-- The code of functions, emitted into one list, and their entries. -/
def functions (signatures : Signatures) (env : Environment) :
    List Function → List Instruction → Option (Except CompileError (List Instruction × List Entry))
  | [], code => some (.ok (code, []))
  | f :: fs, code => do
    match ← function ⟨f, signatures, env⟩ code with
    | (.error cause, _) => return .error ⟨f.name, cause⟩
    | (.ok (), code') =>
      let rest ← functions signatures env fs code'
      return rest.map fun parts => (parts.1, Emit.entry f code.length :: parts.2)

/-! ## Outcomes -/

section

variable {α β : Type} {x : BuildM α} {f : α → BuildM β} {code code' : List Instruction}

theorem bind_ok {a : α} (h : x code = some (.ok a, code')) : (x >>= f) code = f a code' := by
  change Option.bind (x code) _ = _
  rw [h]
  rfl

theorem bind_error {e : CompileError.Cause} (h : x code = some (.error e, code')) :
    (x >>= f) code = some (.error e, code') := by
  change Option.bind (x code) _ = _
  rw [h]
  rfl

end

theorem jump_eq (make : Nat → Instruction) (code : List Instruction) :
    jump make {} code = some (.ok ⟨[code.length]⟩, code ++ [make 0]) := rfl

/-- A label with one jump patches this jump and nothing else. -/
theorem place_eq {make : Nat → Instruction} (hmake : Retargets make) (before after : List Instruction) :
    place ⟨[before.length]⟩ (before ++ [make 0] ++ after) =
      some (.ok (), before ++ [make (before.length + after.length + 1)] ++ after) := by
  generalize hcode : before ++ [make 0] ++ after = code
  have hlength : code.length = before.length + after.length + 1 := by simp [← hcode]; omega
  have hmodify (f : Instruction → Instruction) : code.modify before.length f = before ++ [f (make 0)] ++ after := by
    rw [← hcode, List.append_assoc, List.append_assoc]
    exact List.modifyTailIdx_add _ 0 before ([make 0] ++ after)
  have hpatch : patch code.length before.length code =
      some (.ok (), before ++ [make (before.length + after.length + 1)] ++ after) := by
    rw [patch, if_pos (by omega), hmodify, hmake, hlength]
  exact bind_ok hpatch

/-- An emission ends so: what was there before has stayed, also if the emission has failed. -/
inductive Leaves (before : List Instruction) :
    Option (Except CompileError.Cause Unit × List Instruction) → Except CompileError.Cause (List Instruction) → Prop
  | code (code : List Instruction) : Leaves before (some (.ok (), before ++ code)) (.ok code)
  | error (e : CompileError.Cause) (code : List Instruction) :
    Leaves before (some (.error e, before ++ code)) (.error e)

namespace Leaves

variable {before before' code : List Instruction} {r : Except CompileError.Cause (List Instruction)}

/-- What is emitted behind `before ++ a` is emitted behind `before`, with `a` in front of it. -/
theorem behind {a : List Instruction} {o : Option (Except CompileError.Cause Unit × List Instruction)}
    (h : Leaves (before ++ a) o r) : Leaves before o (r >>= fun b => pure (a ++ b)) := by
  cases h with
  | code b =>
    rw [List.append_assoc]
    exact .code _
  | error e b =>
    rw [List.append_assoc]
    exact .error e _

theorem bind {x : BuildM Unit} {f : Unit → BuildM Unit}
    {k : List Instruction → Except CompileError.Cause (List Instruction)} (hx : Leaves before' (x code) r)
    (hbefore : before <+: before') (hf : ∀ a, Leaves before (f () (before' ++ a)) (k a)) :
    Leaves before ((x >>= f) code) (r >>= k) := by
  obtain ⟨between, rfl⟩ := hbefore
  generalize ho : x code = o at hx
  cases hx with
  | code a =>
    rw [bind_ok ho]
    exact hf a
  | error e a =>
    rw [bind_error ho, List.append_assoc]
    exact .error e _

end Leaves

end BuildM

/-! ## Code at an address -/

/-- Code, for each address at which it may start. -/
abbrev CodeAt := Nat → Except CompileError.Cause (List Instruction)

namespace CodeAt

/-- Instructions that are the same everywhere. -/
def plain (code : List Instruction) : CodeAt := fun _ => return code

def seq (first second : CodeAt) : CodeAt := fun start => do
  let a ← first start
  let b ← second (start + a.length)
  return a ++ b

def skip (make : Nat → Instruction) (body : CodeAt) : CodeAt := fun start => do
  let a ← body (start + 1)
  return [make (start + a.length + 1)] ++ a

def fork (make : Nat → Instruction) (first second : CodeAt) : CodeAt := fun start => do
  let a ← first (start + 1)
  let target := start + a.length + 2
  let b ← second target
  return [make target] ++ a ++ [.jump (target + b.length)] ++ b

/-- The code is the same at all addresses but for the targets of its jumps. -/
def Relocatable (c : CodeAt) : Prop := ∀ start n, c (start + n) = (c start).map (relocate n)

theorem bind_relocate {n : Nat} {r : Except CompileError.Cause (List Instruction)}
    {f g : List Instruction → Except CompileError.Cause (List Instruction)}
    (h : ∀ a, g (relocate n a) = (f a).map (relocate n)) :
    (r.map (relocate n) >>= g) = (r >>= f).map (relocate n) := by
  cases r with
  | error e => rfl
  | ok a => exact h a

namespace Relocatable

variable {c d : CodeAt} {make : Nat → Instruction}

theorem plain {code : List Instruction} (h : ∀ i ∈ code, i.target? = none) : (CodeAt.plain code).Relocatable := by
  intro start n
  have hcode : relocate n code = code.map id := List.map_congr_left fun i hi => i.mapTarget_eq_self (h i hi) _
  rw [List.map_id] at hcode
  exact congrArg Except.ok hcode.symm

theorem seq (hc : c.Relocatable) (hd : d.Relocatable) : (c.seq d).Relocatable := by
  intro start n
  unfold CodeAt.seq
  rw [hc]
  refine bind_relocate fun a => ?_
  rw [length_relocate, Nat.add_right_comm, hd]
  refine bind_relocate fun b => ?_
  exact congrArg Except.ok (relocate_append n a b).symm

theorem skip (hmake : Retargets make) (hc : c.Relocatable) : (c.skip make).Relocatable := by
  intro start n
  unfold CodeAt.skip
  rw [Nat.add_right_comm, hc]
  refine bind_relocate fun a => ?_
  have htarget : start + n + a.length + 1 = start + a.length + 1 + n := by omega
  rw [length_relocate, htarget, ← hmake (· + n)]
  rfl

theorem fork (hmake : Retargets make) (hc : c.Relocatable) (hd : d.Relocatable) : (c.fork make d).Relocatable := by
  intro start n
  unfold CodeAt.fork
  rw [Nat.add_right_comm, hc]
  refine bind_relocate fun a => ?_
  have htarget : start + n + a.length + 2 = start + a.length + 2 + n := by omega
  simp only [length_relocate, htarget]
  rw [hd]
  refine bind_relocate fun b => ?_
  have hending : start + a.length + 2 + n + b.length = start + a.length + 2 + b.length + n := by omega
  rw [length_relocate, hending, ← hmake (· + n)]
  refine congrArg Except.ok ?_
  simp only [relocate_append]
  rfl

end Relocatable

end CodeAt

/-! ## Emission of code -/

namespace BuildM

/-- Wherever it starts, the emission appends the code and touches nothing else, and the code can be moved. -/
structure Emits (x : BuildM Unit) (c : CodeAt) : Prop where
  leaves : ∀ before, Leaves before (x before) (c before.length)
  relocatable : c.Relocatable

namespace Emits

variable {x y : BuildM Unit} {c d : CodeAt} {make : Nat → Instruction}

theorem congr (h : Emits x c) (hcode : ∀ start, c start = d start) : Emits x d := by
  cases (funext hcode : c = d)
  exact h

theorem nothing : Emits (pure ()) (.plain []) where
  leaves before := by
    have h : Leaves before (some (.ok (), before ++ [])) (.ok []) := .code []
    rw [List.append_nil] at h
    exact h
  relocatable := .plain nofun

theorem fails (e : CompileError.Cause) : Emits (throw e) fun _ => .error e where
  leaves before := by
    have h : Leaves before (some (.error e, before ++ [])) (.error e) := .error e []
    rw [List.append_nil] at h
    exact h
  relocatable _ _ := rfl

theorem one {i : Instruction} (h : i.target? = none) : Emits (emit i) (.plain [i]) where
  leaves _ := .code [i]
  relocatable := .plain (List.forall_mem_singleton.2 h)

/-- A lookup emits nothing. -/
theorem found {α : Type} {found : Except CompileError.Cause α} {f : α → BuildM Unit} {c : α → CodeAt}
    (h : ∀ a, found = .ok a → Emits (f a) (c a)) :
    Emits (find found >>= f) fun start => found >>= fun a => c a start := by
  cases hfound : found with
  | error e => exact fails e
  | ok a => exact h a hfound

theorem seq (hx : Emits x c) (hy : Emits y d) : Emits (do x; y) (c.seq d) where
  leaves before := by
    refine (hx.leaves before).bind List.prefix_rfl fun a => ?_
    rw [← List.length_append]
    exact (hy.leaves (before ++ a)).behind
  relocatable := hx.relocatable.seq hy.relocatable

theorem all : ∀ {code : List Instruction}, (∀ i ∈ code, i.target? = none) → Emits (emitAll code) (.plain code)
  | [], _ => nothing
  | _ :: _, h => (one (List.forall_mem_cons.1 h).1).seq (all (List.forall_mem_cons.1 h).2)

theorem skip (hmake : Retargets make) (hx : Emits x c) : Emits (BuildM.skip make x) (c.skip make) where
  leaves before := by
    have hbody := hx.leaves (before ++ [make 0])
    rw [List.length_append, List.length_singleton] at hbody
    unfold BuildM.skip
    rw [bind_ok (jump_eq make before)]
    refine hbody.bind (List.prefix_append _ _) fun a => ?_
    rw [place_eq hmake, List.append_assoc]
    exact .code _
  relocatable := hx.relocatable.skip hmake

theorem fork (hmake : Retargets make) (hx : Emits x c) (hy : Emits y d) :
    Emits (BuildM.fork make x y) (c.fork make d) where
  leaves before := by
    have hfirst := hx.leaves (before ++ [make 0])
    rw [List.length_append, List.length_singleton] at hfirst
    unfold BuildM.fork
    rw [bind_ok (jump_eq make before)]
    refine hfirst.bind (List.prefix_append _ _) fun a => ?_
    rw [bind_ok (jump_eq .jump _)]
    -- The first label is placed while the jump of the second is open, and patches only its own.
    rw [List.append_assoc _ a, bind_ok (place_eq hmake before (a ++ [Instruction.jump 0])), ← List.append_assoc _ a]
    have hlength : before.length + (a ++ [Instruction.jump 0]).length + 1 = before.length + a.length + 2 := by
      simp [Nat.add_assoc]
    rw [hlength]
    generalize htarget : before.length + a.length + 2 = target
    have hsecond := hy.leaves (before ++ [make target] ++ a ++ [.jump 0])
    have hstart : (before ++ [make target] ++ a ++ [Instruction.jump 0]).length = target := by simp; omega
    rw [hstart] at hsecond
    refine hsecond.bind (by simp only [List.append_assoc, List.prefix_append]) fun b => ?_
    -- The second label still has the address of its jump.
    have hsite : (before ++ [make 0] ++ a).length = (before ++ [make target] ++ a).length := by simp
    have hending : (before ++ [make target] ++ a).length + b.length + 1 = target + b.length := by simp; omega
    have hjump : Retargets .jump := fun _ _ => rfl
    rw [hsite, place_eq hjump, hending]
    simp only [List.append_assoc]
    exact .code _
  relocatable := hx.relocatable.fork hmake hy.relocatable

end Emits

section

variable {s : Scope} {name : String} {argc : Nat} {args : BuildM Unit} {rest : FunctionKind → BuildM Unit}
variable {c d : CodeAt}

theorem call_emits {call : Instruction} {kind : FunctionKind} (hcallee : s.callee name argc = .ok (call, kind))
    (hargs : Emits args c) (hrest : Emits (rest kind) d) :
    Emits (BuildM.call s name argc args >>= rest) (c.seq (.seq (.plain [call]) d)) := by
  simp only [BuildM.call, bind_assoc, pure_bind, hcallee]
  exact hargs.seq (.seq (.one (Emit.callee_target? hcallee)) hrest)

theorem call_fails {e : CompileError.Cause} (hcallee : s.callee name argc = .error e) (hargs : Emits args c) :
    Emits (BuildM.call s name argc args >>= rest) (c.seq fun _ => .error e) := by
  simp only [BuildM.call, bind_assoc, pure_bind, hcallee]
  exact hargs.seq (.fails e)

end

/-- The code of `&&` and `||` behind that of the left operand. -/
theorem lazy_emits {op : BinaryOp} {right : BuildM Unit} {c : CodeAt} (hright : Emits right c) :
    Emits (fork (Emit.skipRight op) (do right; emitAll [.push 0, .arith .notEqual]) (emit (.push (Emit.decided op))))
      (.fork (Emit.skipRight op) (c.seq (.plain [.push 0, .arith .notEqual])) (.plain [.push (Emit.decided op)])) := by
  have hnormal : ∀ i ∈ [Instruction.push 0, .arith .notEqual], i.target? = none := by decide
  exact .fork (Emit.skipRight_retargets op) (hright.seq (.all hnormal)) (.one rfl)

section

variable (s : Scope)

mutual

theorem value_emits : ∀ e : Expr, Emits (value s e) (Emit.value s · e)
  | .num n => by
    simp only [value, Emit.value]
    exact .one rfl
  | .var name => by
    simp only [value, Emit.value]
    exact .found fun slot _ => .one rfl
  | .unary .identity operand => by
    simp only [value, Emit.value]
    exact value_emits operand
  | .unary .negate operand => by
    simp only [value, Emit.value]
    exact (value_emits operand).seq (.one rfl)
  | .binary op left right => by
    simp only [value, Emit.value]
    cases op.strict? with
    | some arith =>
      refine ((value_emits left).seq ((value_emits right).seq (.one rfl))).congr fun start => ?_
      simp only [CodeAt.seq, CodeAt.plain, bind_assoc, pure_bind, List.append_assoc]
    | none =>
      refine ((value_emits left).seq (lazy_emits (value_emits right))).congr fun start => ?_
      simp [CodeAt.seq, CodeAt.fork, CodeAt.plain, Nat.add_assoc]
  | .call name args => by
    simp only [value, Emit.value]
    cases hcallee : s.callee name args.length with
    | error e => exact call_fails hcallee (values_emits args)
    | ok callee =>
      obtain ⟨call, kind⟩ := callee
      cases kind with
      | func => exact (call_emits hcallee (values_emits args) .nothing).congr fun _ => rfl
      | proc => exact (call_emits hcallee (values_emits args) (.fails _)).congr fun _ => rfl

theorem values_emits : ∀ es : List Expr, Emits (values s es) (Emit.values s · es)
  | [] => by
    simp only [values, Emit.values]
    exact .nothing
  | e :: es => by
    simp only [values, Emit.values]
    exact (value_emits e).seq (values_emits es)

end

theorem statement_expr_emits (e : Expr) : Emits (statement s (.expr e)) (Emit.statement s · (.expr e)) := by
  cases e with
  | call name args =>
    simp only [statement, Emit.statement]
    cases hcallee : s.callee name args.length with
    | error e => exact call_fails hcallee (values_emits s args)
    | ok callee =>
      obtain ⟨call, kind⟩ := callee
      cases kind with
      | func => exact (call_emits hcallee (values_emits s args) (.one rfl)).congr fun _ => rfl
      | proc => exact (call_emits hcallee (values_emits s args) .nothing).congr fun _ => rfl
  | _ =>
    simp only [statement, Emit.statement]
    exact (value_emits s _).seq (.one rfl)

mutual

theorem statement_emits : ∀ stmt : Stmt, Emits (statement s stmt) (Emit.statement s · stmt)
  | .expr e => statement_expr_emits s e
  | .set target e => by
    simp only [statement, Emit.statement]
    refine ((value_emits s e).seq (.found fun slot _ => .one rfl)).congr fun start => ?_
    simp only [CodeAt.seq, CodeAt.plain, bind_assoc, pure_bind]
  | .ret none => by
    simp only [statement, Emit.statement]
    exact .one rfl
  | .ret (some e) => by
    simp only [statement, Emit.statement]
    exact (value_emits s e).seq (.one rfl)
  | .ifThen test body => by
    simp only [statement, Emit.statement]
    refine ((value_emits s test).seq (.skip (fun _ _ => rfl) (block_emits body))).congr fun start => ?_
    simp [CodeAt.seq, CodeAt.skip]
  | .ifElse test yes no => by
    simp only [statement, Emit.statement]
    refine ((value_emits s test).seq (.fork (fun _ _ => rfl) (block_emits yes) (block_emits no))).congr fun start => ?_
    simp [CodeAt.seq, CodeAt.fork]

theorem block_emits : ∀ body : List Stmt, Emits (block s body) (Emit.block s · body)
  | [] => by
    simp only [block, Emit.block]
    exact .nothing
  | stmt :: rest => by
    simp only [block, Emit.block]
    exact (statement_emits stmt).seq (block_emits rest)

end

end

/-- The emission ends in the same way in the empty list and behind `before`. If it fails, it is with the same error. If
it does not, `before` is unchanged, and behind it stands what is emitted into the empty list, with the targets of its
jumps increased by the length of `before`. The code is that of `c`. -/
inductive AppendsRelocated (x : BuildM Unit) (c : CodeAt) (before : List Instruction) : Prop
  | emitted (code : List Instruction) (hempty : x [] = some (.ok (), code))
      (hbehind : x before = some (.ok (), before ++ relocate before.length code))
      (hcode : c 0 = .ok code) (hmoved : c before.length = .ok (relocate before.length code))
  | failed (e : CompileError.Cause) (part part' : List Instruction) (hempty : x [] = some (.error e, part))
      (hbehind : x before = some (.error e, before ++ part')) (hcode : c 0 = .error e)
      (hmoved : c before.length = .error e)

theorem Emits.appendsRelocated {x : BuildM Unit} {c : CodeAt} (h : Emits x c) (before : List Instruction) :
    AppendsRelocated x c before := by
  have hempty := h.leaves []
  have hbehind := h.leaves before
  have hmoved := h.relocatable 0 before.length
  rw [Nat.zero_add] at hmoved
  rw [List.length_nil] at hempty
  rw [hmoved] at hbehind
  generalize ho : x [] = o at hempty
  generalize ho' : x before = o' at hbehind
  generalize hr : c 0 = r at hempty hbehind hmoved
  cases hempty with
  | code code =>
    cases hbehind
    exact .emitted code ho ho' hr hmoved
  | error e part =>
    cases hbehind with
    | error _ part' => exact .failed e part part' ho ho' hr hmoved

/-- Emission of an expression, a statement or a block only appends, and what it appends does not depend on the code that
is there but for the targets of jumps. -/
theorem appends_relocated (s : Scope) (before : List Instruction) :
    (∀ e, AppendsRelocated (value s e) (Emit.value s · e) before) ∧
    (∀ stmt, AppendsRelocated (statement s stmt) (Emit.statement s · stmt) before) ∧
    (∀ body, AppendsRelocated (block s body) (Emit.block s · body) before) :=
  ⟨fun e => (value_emits s e).appendsRelocated before,
    fun stmt => (statement_emits s stmt).appendsRelocated before,
    fun body => (block_emits s body).appendsRelocated before⟩

example (s : Scope) :
    value s (.binary .and (.num 1) (.binary .or (.num 2) (.num 3))) [.ret] = some (.ok (),
      [.ret, .push 1, .jumpIfZero 13, .push 2, .jumpIfNonZero 9, .push 3, .push 0, .arith .notEqual, .jump 10, .push 1,
        .push 0, .arith .notEqual, .jump 14, .push 0]) := rfl

/-! ## Programs -/

theorem terminator_target? (f : Function) : ∀ i ∈ Emit.terminator f, i.target? = none := by
  unfold Emit.terminator
  split <;> decide

theorem function_emits (s : Scope) :
    Emits (function s) fun start => return (← Emit.block s start s.function.body) ++ Emit.terminator s.function :=
  (block_emits s s.function.body).seq (.all (terminator_target? s.function))

/-- Each function is emitted behind those before it, where its entry has it start. -/
theorem functions_eq (signatures : Signatures) (env : Environment) : ∀ (fs : List Function) (code : List Instruction),
    functions signatures env fs code =
      some ((Emit.functions signatures env code.length fs).map fun parts => (code ++ parts.1, parts.2))
  | [], code => by
    change some (Except.ok (code, [])) = some (Except.ok (code ++ [], []))
    rw [List.append_nil]
  | f :: fs, code => by
    have hfunction := (function_emits ⟨f, signatures, env⟩).leaves code
    rw [functions, Emit.functions, Emit.function]
    generalize function ⟨f, signatures, env⟩ code = o at hfunction ⊢
    generalize (do return (← Emit.block ⟨f, signatures, env⟩ code.length f.body) ++ Emit.terminator f) = r
      at hfunction ⊢
    cases hfunction with
    | error e part => rfl
    | code a =>
      have hrest := functions_eq signatures env fs (code ++ a)
      rw [List.length_append] at hrest
      change (functions signatures env fs (code ++ a)).bind _ =
        some ((Emit.functions signatures env (code.length + a.length) fs >>= _).map _)
      rw [hrest]
      cases Emit.functions signatures env (code.length + a.length) fs with
      | error e => rfl
      | ok parts =>
        change some (Except.ok (code ++ a ++ parts.1, _)) = some (Except.ok (code ++ (a ++ parts.1), _))
        rw [List.append_assoc]

end BuildM

/-- The image of a program whose code is emitted with labels. -/
def Program.build (p : Program) (env : Environment) : Option (Except CompileError Image) :=
  match p.verify with
  | .error e => some (.error e)
  | .ok signatures => do
    let result ← BuildM.functions signatures env p []
    return result.map fun parts => ⟨parts.1.toArray, parts.2.toArray⟩

/-- Compiling with labels gives the image of the program. -/
theorem Program.build_eq_compile (p : Program) (env : Environment) : p.build env = some (p.compile env) := by
  unfold Program.build Program.compile
  cases p.verify with
  | error e => rfl
  | ok signatures =>
    have hfunctions := BuildM.functions_eq signatures env p []
    change (BuildM.functions signatures env p []).bind _ = _
    rw [hfunctions]
    change some (((Emit.functions signatures env 0 p).map _).map _) = some (Emit.functions signatures env 0 p >>= _)
    cases Emit.functions signatures env 0 p with
    | error e => rfl
    | ok parts => rfl

end Wordlang
