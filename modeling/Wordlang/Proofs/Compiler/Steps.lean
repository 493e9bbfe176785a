import Wordlang.Code.Emit
import Wordlang.Proofs.Compiler.Landing

/-!
# Steps inside an activation

Inside a function, the state of a machine is made of the variables of the activation, the operands of the
function and what lies below them: the stack and the frames of the caller. Each instruction leads from one
such state to another and does what a small evaluation does.
-/

namespace Wordlang

/-- What lies below an activation, and where the run goes on when it is over. -/
structure Caller where
  stack : List Word
  frames : List Frame
  returnAddress : Option Nat

/-- The point at which the caller has got a result. -/
def Caller.resumed (c : Caller) (result : Option Word) : Landing :=
  match c.returnAddress with
  | some pc => ⟨.goto pc, c.stack ++ result.toList, c.frames⟩
  | none => ⟨.done result, c.stack, c.frames⟩

namespace Activation

def args (a : Activation) : List Word := a.params.map (·.2)

def frame (a : Activation) (c : Caller) : Frame :=
  ⟨c.returnAddress, c.stack.length, a.args.length, (a.locals.map (·.2)).toArray⟩

theorem args_start {f : Function} {xs : List Word} (h : xs.length = f.params.length) :
    (Activation.start f xs).args = xs := List.map_snd_zip (by omega)

theorem frame_start {f : Function} {xs : List Word} (c : Caller) (address : Nat)
    (h : xs.length = f.params.length) :
    (Activation.start f xs).frame c = .ofEntry (Emit.entry f address) c.returnAddress c.stack.length := by
  have hl : (f.locals.map fun _ => (0 : Word)).toArray = Array.replicate f.locals.length 0 := by
    rw [List.map_const', List.toArray_replicate]
  simp only [frame, args_start h, h, Frame.ofEntry, Emit.entry]
  simp only [Activation.start, List.map_map, Function.comp_def, hl]

/-- The function of the activation is at `pc` and has the given operands on the stack. -/
def landing (a : Activation) (c : Caller) (pc : Nat) (ops : List Word) : Landing :=
  ⟨.goto pc, c.stack ++ a.args ++ ops, c.frames ++ [a.frame c]⟩

end Activation

/-- What a call leaves on the stack when the function is of the given kind. -/
def FunctionKind.results : FunctionKind → Word → List Word
  | .func, v => [v]
  | .proc, _ => []

theorem shrink_append (xs ys : List Word) : (xs ++ ys).toArray.shrink xs.length = xs.toArray := by
  rw [Array.shrink_eq_take, List.take_toArray, List.take_left]

theorem extract_append (xs ys : List Word) : ((xs ++ ys).toArray.extract xs.length).toList = ys := by
  simp [List.extract_eq_take_drop]

/-- What an operation does, as an evaluation. -/
def Arith.evaluate {η : Type} (op : Arith) (v w : Word) : EvalM η Word :=
  match op.eval v w with
  | .ok r => return r
  | .error .byZero => throw (.divisionByZero 0)
  | .error .overflow => throw (.overflow 0)

/-- What a condition is worth is what a comparison leaves on the stack. -/
theorem Eval.truth_eq_ofBool (p : Prop) [Decidable p] : truth p = Word.ofBool p := by
  by_cases h : p <;> simp [truth, Word.ofBool, h]

/-- The machine divides as trees do: toward zero, with the same two cases without a quotient. -/
theorem Eval.quotient_eq_evaluate {η : Type} (x y : Word) :
    (quotient x y : EvalM η Word) = Arith.div.evaluate x y := by
  have hdiv : Int64.ofInt (x.toInt.tdiv y.toInt) = x / y := by
    rw [Int64.ofInt_tdiv x.minValue_le_toInt x.toInt_le y.minValue_le_toInt y.toInt_le,
      Int64.ofInt_toInt, Int64.ofInt_toInt]
  simp only [quotient, hdiv, Arith.evaluate, Arith.eval, Word.divide]
  by_cases hzero : y = 0
  · simp only [if_pos hzero]
  · by_cases hover : x = Int64.minValue ∧ y = -1
    · simp only [if_neg hzero, if_pos hover]
    · simp only [if_neg hzero, if_neg hover]

namespace ExecM

variable {η : Type} {c : Caller} {a : Activation} {pc : Nat} {ops : List Word}

theorem operand_landing (p : Nat) (host : η) (v : Word) :
    operand pc ((a.landing c p (ops ++ [v])).state host) = .ok v ((a.landing c p ops).state host) := by
  have h : ¬ (c.stack ++ a.args ++ ops ++ [v]).length ≤ (a.frame c).floor := by
    simp only [Activation.frame, Frame.floor, List.length_append, List.length_singleton]
    omega
  simp only [operand, Landing.state, Activation.landing, ← List.append_assoc, List.back?_toArray,
    List.getLast?_concat, List.size_toArray, if_neg h, List.pop_toArray, List.dropLast_concat]

theorem push_landing (p : Nat) (host : η) (v : Word) :
    push v ((a.landing c p ops).state host) = .ok () ((a.landing c p (ops ++ [v])).state host) := by
  have hpush : ∀ s : State η, push v s = .ok () { s with stack := s.stack.push v } := fun _ => rfl
  simp only [hpush, Landing.state, Activation.landing, List.push_toArray, List.append_assoc]

theorem operandsBase_landing (p : Nat) (host : η) (xs : List Word) :
    operandsBase pc xs.length ((a.landing c p (ops ++ xs)).state host) =
      .ok (c.stack ++ a.args ++ ops).length ((a.landing c p (ops ++ xs)).state host) := by
  have h : (a.frame c).floor + xs.length ≤ (c.stack ++ a.args ++ (ops ++ xs)).length := by
    simp only [Activation.frame, Frame.floor, List.length_append]
    omega
  have e : (c.stack ++ a.args ++ (ops ++ xs)).length - xs.length = (c.stack ++ a.args ++ ops).length := by
    simp only [List.length_append]
    omega
  simp only [operandsBase, Landing.state, Activation.landing, List.back?_toArray, List.getLast?_concat,
    List.size_toArray, if_pos h, e]

theorem operandsFrom_landing (p : Nat) (host : η) (xs : List Word) :
    operandsFrom (c.stack ++ a.args ++ ops).length ((a.landing c p (ops ++ xs)).state host) =
      .ok xs ((a.landing c p ops).state host) := by
  simp only [operandsFrom, Landing.state, Activation.landing, ← List.append_assoc (c.stack ++ a.args),
    shrink_append, extract_append]

theorem leave_landing (p : Nat) (host : η) (result : Option Word) :
    leave pc result ((a.landing c p ops).state host) = .ok c.returnAddress ((c.resumed result).state host) := by
  have e : (c.stack ++ a.args ++ ops).toArray.shrink (a.frame c).base = c.stack.toArray := by
    rw [List.append_assoc]
    exact shrink_append _ _
  simp only [leave, Landing.state, Activation.landing, Caller.resumed, List.back?_toArray,
    List.getLast?_concat, List.pop_toArray, List.dropLast_concat, e]
  cases h : c.returnAddress <;> cases result <;> simp [Activation.frame, h]

theorem enter_state (frame : Frame) (l : Landing) (host : η) :
    enter frame (l.state host) = .ok () (Landing.state ⟨l.next, l.stack, l.frames ++ [frame]⟩ host) := by
  have henter : ∀ s : State η, enter frame s = .ok () { s with frames := s.frames.push frame } := fun _ => rfl
  simp only [henter, Landing.state, List.push_toArray]

theorem get_state (s : State η) : (get : ExecM η (State η)) s = .ok s s := rfl

theorem ask_state {α : Type} (request : η → Except Fault α × η) (l : Landing) (host : η) :
    ask request (l.state host) = match request host with
      | (.ok x, host') => .ok x (l.state host')
      | (.error f, host') => .error f (l.state host') := rfl

end ExecM

namespace Simulates

open ExecM

variable {η α : Type} [Host η] {m : Machine} {c : Caller} {a : Activation} {pc : Nat} {ops : List Word}

theorem push {v : Word} (hi : m.image.code[pc]? = some (.push v)) :
    Simulates m (pure () : EvalM η Unit) (a.landing c pc ops) fun _ => a.landing c (pc + 1) (ops ++ [v]) :=
  of_exec hi fun host => by
    show m.exec pc (.push v) ((a.landing c pc ops).state host) = _
    simp only [Machine.exec, Bind.bind, EStateM.bind, push_landing, Pure.pure, EStateM.pure]
    rfl

theorem pop {v : Word} (hi : m.image.code[pc]? = some .pop) :
    Simulates m (pure () : EvalM η Unit) (a.landing c pc (ops ++ [v])) fun _ => a.landing c (pc + 1) ops :=
  of_exec hi fun host => by
    show m.exec pc .pop ((a.landing c pc (ops ++ [v])).state host) = _
    simp only [Machine.exec, Bind.bind, EStateM.bind, operand_landing, Pure.pure, EStateM.pure]
    rfl

theorem neg {v : Word} (hi : m.image.code[pc]? = some .neg) :
    Simulates m (pure () : EvalM η Unit) (a.landing c pc (ops ++ [v])) fun _ =>
      a.landing c (pc + 1) (ops ++ [-v]) :=
  of_exec hi fun host => by
    show m.exec pc .neg ((a.landing c pc (ops ++ [v])).state host) = _
    simp only [Machine.exec, Bind.bind, EStateM.bind, operand_landing, push_landing, Pure.pure, EStateM.pure]
    rfl

theorem jump {target : Nat} (hi : m.image.code[pc]? = some (.jump target)) :
    Simulates m (pure () : EvalM η Unit) (a.landing c pc ops) fun _ => a.landing c target ops :=
  of_exec hi fun _ => rfl

theorem jumpIfZero {target : Nat} {v : Word} (hi : m.image.code[pc]? = some (.jumpIfZero target)) :
    Simulates m (pure () : EvalM η Unit) (a.landing c pc (ops ++ [v])) fun _ =>
      a.landing c (if v = 0 then target else pc + 1) ops :=
  of_exec hi fun host => by
    show m.exec pc (.jumpIfZero target) ((a.landing c pc (ops ++ [v])).state host) = _
    simp only [Machine.exec, Bind.bind, EStateM.bind, operand_landing]
    split <;> rfl

theorem jumpIfNonZero {target : Nat} {v : Word} (hi : m.image.code[pc]? = some (.jumpIfNonZero target)) :
    Simulates m (pure () : EvalM η Unit) (a.landing c pc (ops ++ [v])) fun _ =>
      a.landing c (if v = 0 then pc + 1 else target) ops :=
  of_exec hi fun host => by
    show m.exec pc (.jumpIfNonZero target) ((a.landing c pc (ops ++ [v])).state host) = _
    simp only [Machine.exec, Bind.bind, EStateM.bind, operand_landing]
    split <;> rfl

theorem arith {op : Arith} {v w : Word} (hi : m.image.code[pc]? = some (.arith op)) :
    Simulates m (op.evaluate v w : EvalM η Word) (a.landing c pc (ops ++ [v] ++ [w])) fun r =>
      a.landing c (pc + 1) (ops ++ [r]) :=
  of_exec hi fun host => by
    have h : m.exec pc (.arith op) ((a.landing c pc (ops ++ [v] ++ [w])).state host) =
        EStateM.bind (Machine.calculate pc op v w) (fun r => do ExecM.push r; return .goto (pc + 1))
          ((a.landing c pc ops).state host) := by
      simp only [Machine.exec, Bind.bind, EStateM.bind, operand_landing]
    unfold Arith.evaluate
    cases hr : op.eval v w with
    | ok r =>
      refine h.trans ?_
      simp only [EStateM.bind, Machine.calculate, hr, Bind.bind, Pure.pure, EStateM.pure, push_landing]
      rfl
    | error e =>
      cases e with
      | byZero =>
        refine ⟨.divisionByZero pc, (a.landing c pc ops).state host, rfl, rfl, h.trans ?_⟩
        simp only [EStateM.bind, Machine.calculate, hr]
        rfl
      | overflow =>
        refine ⟨.overflow pc, (a.landing c pc ops).state host, rfl, rfl, h.trans ?_⟩
        simp only [EStateM.bind, Machine.calculate, hr]
        rfl

theorem ret (hi : m.image.code[pc]? = some .ret) :
    Simulates m (pure () : EvalM η Unit) (a.landing c pc ops) fun _ => c.resumed none :=
  of_exec hi fun host => by
    show m.exec pc .ret ((a.landing c pc ops).state host) = _
    simp only [Machine.exec, Machine.returnFrom, Bind.bind, EStateM.bind, leave_landing]
    cases h : c.returnAddress <;> simp only [Caller.resumed, h] <;> rfl

theorem retValue {v : Word} (hi : m.image.code[pc]? = some .retValue) :
    Simulates m (pure () : EvalM η Unit) (a.landing c pc (ops ++ [v])) fun _ => c.resumed (some v) :=
  of_exec hi fun host => by
    show m.exec pc .retValue ((a.landing c pc (ops ++ [v])).state host) = _
    simp only [Machine.exec, Machine.returnFrom, Bind.bind, EStateM.bind, operand_landing, leave_landing]
    cases h : c.returnAddress <;> simp only [Caller.resumed, h] <;> rfl

/-! ## Calls -/

/-- The host runs an external function. -/
theorem callExternal {id argc : Nat} {kind : FunctionKind} {xs : List Word}
    (hi : m.image.code[pc]? = some (.callExternal id argc kind)) (hx : xs.length = argc) :
    Simulates m (Eval.ask (Host.callExternal · id xs) : EvalM η Word) (a.landing c pc (ops ++ xs)) fun r =>
      a.landing c (pc + 1) (ops ++ kind.results r) :=
  of_exec hi fun host => by
    subst hx
    cases hr : Host.callExternal host id xs with
    | mk r host' =>
      simp only [Eval.ask, hr]
      cases r with
      | ok r =>
        show m.exec pc (.callExternal id xs.length kind) ((a.landing c pc (ops ++ xs)).state host) = _
        simp only [Machine.exec, Machine.callHost, Bind.bind, EStateM.bind, operandsBase_landing,
          operandsFrom_landing, ask_state, hr]
        cases kind <;> simp only [push_landing, FunctionKind.results, List.append_nil] <;> rfl
      | error f =>
        refine ⟨f, (a.landing c pc ops).state host', rfl, rfl, ?_⟩
        show m.exec pc (.callExternal id xs.length kind) ((a.landing c pc (ops ++ xs)).state host) = _
        simp only [Machine.exec, Machine.callHost, Bind.bind, EStateM.bind, operandsBase_landing,
          operandsFrom_landing, ask_state, hr]

/-- Entering a function of the program. -/
theorem enterFunction {id argc address : Nat} {f : Function} {xs : List Word}
    (hi : m.image.code[pc]? = some (.call id argc)) (hx : xs.length = argc)
    (he : m.image.entries[id]? = some (Emit.entry f address)) (hf : f.params.length = argc)
    (hroom : c.frames.length + 1 < m.maxCallDepth) :
    Simulates m (pure () : EvalM η Unit) (a.landing c pc (ops ++ xs)) fun _ =>
      (Activation.start f xs).landing ⟨c.stack ++ a.args ++ ops, c.frames ++ [a.frame c], some (pc + 1)⟩
        address [] :=
  of_exec hi fun host => by
    show m.exec pc (.call id argc) ((a.landing c pc (ops ++ xs)).state host) = _
    have hd : ¬ m.maxCallDepth ≤ ((a.landing c pc (ops ++ xs)).state host).frames.size := by
      simp only [Landing.state, Activation.landing, List.size_toArray, List.length_append, List.length_singleton]
      omega
    have hp : (Emit.entry f address).params = argc := hf
    simp only [Machine.exec, Machine.enterFunction, Bind.bind, EStateM.bind, get_state, if_neg hd, he, hp, ne_eq,
      not_true, if_false]
    subst hx
    simp only [operandsBase_landing, enter_state]
    simp only [Activation.landing, Activation.args_start hf.symm, Activation.frame_start _ address hf.symm,
      List.append_nil, ← List.append_assoc]
    rfl

theorem callDepthExceeded {id argc : Nat} {stop : α → Landing}
    (hi : m.image.code[pc]? = some (.call id argc)) (hroom : m.maxCallDepth ≤ c.frames.length + 1) :
    Simulates m (throw (.callDepthExceeded m.maxCallDepth) : EvalM η α) (a.landing c pc ops) stop :=
  of_exec hi fun host => by
    refine ⟨.callDepthExceeded m.maxCallDepth, (a.landing c pc ops).state host, rfl, rfl, ?_⟩
    have hd : m.maxCallDepth ≤ ((a.landing c pc ops).state host).frames.size := by
      simp only [Landing.state, Activation.landing, List.size_toArray, List.length_append, List.length_singleton]
      omega
    show m.exec pc (.call id argc) ((a.landing c pc ops).state host) = _
    simp only [Machine.exec, Machine.enterFunction, Bind.bind, EStateM.bind, get_state, if_pos hd]
    rfl

end Simulates

end Wordlang
