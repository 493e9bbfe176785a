import Wordlang.Proofs.Compiler.Refinement

/-!
# Compiled programs never go wrong

A program that compiles refers only to what exists. With bindings made for its environment, the faults left
are those of arithmetic, of nesting and of external functions that nobody bound.

Main statement: `Program.call_never_goes_wrong`.
-/

namespace Wordlang

/-! ## Bindings for an environment -/

/-- The bindings have the functions and the globals that the environment declares. -/
structure Bindings.Serves {σ : Type} (b : Bindings σ) (env : Environment) : Prop where
  functions : b.functions.map (·.1) = env.functions.map (·.name)
  globals : b.globals.map (·.1) = env.globals

namespace Bindings

variable {σ : Type} {b b' : Bindings σ} {env : Environment} {name : String} {id : Nat}

/-- To give an element a new value under its old name changes no name. -/
theorem map_fst_set {α : Type} {l : List (String × α)} {v : α} (h : (l.map (·.1))[id]? = some name) :
    (l.set id (name, v)).map (·.1) = l.map (·.1) := by
  rw [List.map_set]
  refine List.ext_getElem? fun i => ?_
  rw [List.getElem?_set]
  split
  · rename_i hi
    subst hi
    obtain ⟨hlt, -⟩ := List.getElem?_eq_some_iff.1 h
    rw [h, if_pos hlt]
  · rfl

theorem getElem?_of_findIdx? {α : Type} {l : List α} {k : α → String}
    (h : l.findIdx? (k · == name) = some id) : (l.map k)[id]? = some name := by
  obtain ⟨hlt, hname, -⟩ := List.findIdx?_eq_some_iff_getElem.1 h
  rw [List.getElem?_map, List.getElem?_eq_getElem hlt]
  simpa using hname

theorem serves_ofEnvironment (env : Environment) (world : σ) : (ofEnvironment env world).Serves env :=
  ⟨by simp [ofEnvironment, Function.comp_def], by simp [ofEnvironment, Function.comp_def]⟩

theorem Serves.bind {body : ExternalBody σ} (h : b.Serves env) (hb : b.bind name body = .ok (id, b')) :
    b'.Serves env := by
  unfold Bindings.bind at hb
  split at hb
  · rename_i hid
    cases hb
    exact ⟨(map_fst_set (getElem?_of_findIdx? hid)).trans h.functions, h.globals⟩
  · cases hb

theorem Serves.setGlobal {value : Word} (h : b.Serves env) (hb : b.setGlobal name value = .ok b') :
    b'.Serves env := by
  unfold Bindings.setGlobal at hb
  split at hb
  · rename_i hid
    cases hb
    exact ⟨h.functions, (map_fst_set (getElem?_of_findIdx? hid)).trans h.globals⟩
  · cases hb

end Bindings

/-- The faults that remain: the last is about a declared function without a body. -/
def Fault.Expected {σ : Type} (b : Bindings σ) (env : Environment) : Fault → Prop
  | .divisionByZero _ => True
  | .overflow _ => True
  | .callDepthExceeded _ => True
  | .unboundExternal name => ∃ id, env.functionId? name = some id ∧ b.functions[id]? = some (name, none)
  | _ => False

theorem Fault.expected_unplaced {σ : Type} {b : Bindings σ} {env : Environment} {fault : Fault} :
    fault.unplaced.Expected b env ↔ fault.Expected b env := by
  cases fault <;> exact Iff.rfl

/-- What stays true of a host that starts with the bindings `b`: their functions and the names of their
globals, and that each request had as many arguments as the function takes. -/
structure Recorded.Sound {σ : Type} (b : Bindings σ) (env : Environment) (r : Recorded (Bindings σ)) : Prop where
  functions : r.host.functions = b.functions
  globals : r.host.globals.map (·.1) = env.globals
  calls : ∀ call ∈ r.calls, ∃ external, env.functions[call.1]? = some external ∧ external.arity = call.2.length

/-! ## Evaluations that fail only as expected -/

/-- From a sound host, the evaluation leaves a sound host, and its fault is an expected one. -/
def EvalM.Safe {σ α : Type} (b : Bindings σ) (env : Environment) (x : EvalM (Recorded (Bindings σ)) α) : Prop :=
  ∀ host, host.Sound b env → match x host with
    | .ok _ host' => host'.Sound b env
    | .error fault host' => host'.Sound b env ∧ fault.Expected b env

namespace EvalM.Safe

variable {σ α β : Type} {b : Bindings σ} {env : Environment} {x : EvalM (Recorded (Bindings σ)) α}

theorem bind {f : α → EvalM (Recorded (Bindings σ)) β} (hx : x.Safe b env)
    (hf : ∀ a host host', x host = .ok a host' → (f a).Safe b env) : (x >>= f).Safe b env := by
  intro host hhost
  have h := hx host hhost
  have e : (x >>= f) host = EStateM.bind x f host := rfl
  rw [e, EStateM.bind]
  cases hv : x host with
  | ok a host' =>
    simp only [hv] at h
    exact hf a host host' hv host' h
  | error fault host' => simpa only [hv] using h

theorem pure (a : α) : (Pure.pure a : EvalM (Recorded (Bindings σ)) α).Safe b env := fun _ h => h

theorem throw {fault : Fault} (h : fault.Expected b env) :
    (MonadExcept.throw fault : EvalM (Recorded (Bindings σ)) α).Safe b env := fun _ hhost => ⟨hhost, h⟩

/-! ### Requests -/

/-- A sound host has every global that a name resolves to. -/
theorem global_of_resolve {name : String} {id : Nat} {host : Recorded (Bindings σ)} (hhost : host.Sound b env)
    (h : env.resolveGlobal? name = some id) : ∃ value, host.host.globals[id]? = some (name, value) := by
  have hid : (env.globals.map fun x => x)[id]? = some name := Bindings.getElem?_of_findIdx? h
  rw [List.map_id', ← hhost.globals, List.getElem?_map] at hid
  obtain ⟨⟨_, value⟩, hp, rfl⟩ := Option.map_eq_some_iff.1 hid
  exact ⟨value, hp⟩

theorem loadGlobal {name : String} {id : Nat} (h : env.resolveGlobal? name = some id) :
    (Eval.ask (Host.loadGlobal · id) : EvalM (Recorded (Bindings σ)) Word).Safe b env := by
  intro host hhost
  obtain ⟨value, hp⟩ := global_of_resolve hhost h
  simp only [Eval.ask, Host.loadGlobal, Bindings.loadGlobal, hp]
  exact hhost

theorem storeGlobal {name : String} {id : Nat} {value : Word} (h : env.resolveGlobal? name = some id) :
    (Eval.ask (Host.storeGlobal · id value) : EvalM (Recorded (Bindings σ)) Unit).Safe b env := by
  intro host hhost
  obtain ⟨old, hp⟩ := global_of_resolve hhost h
  have hname : (host.host.globals.map (·.1))[id]? = some name := by rw [List.getElem?_map, hp]; rfl
  simp only [Eval.ask, Host.storeGlobal, Bindings.storeGlobal, hp]
  exact ⟨hhost.functions, (Bindings.map_fst_set hname).trans hhost.globals, hhost.calls⟩

theorem callExternal {name : String} {id : Nat} {args : List Word} {external : External} (hb : b.Serves env)
    (h : env.resolveFunction? name args.length = some (id, external)) :
    (Eval.ask (Host.callExternal · id args) : EvalM (Recorded (Bindings σ)) Word).Safe b env := by
  intro host hhost
  simp only [Environment.resolveFunction?, Option.bind_eq_bind, Option.bind_eq_some_iff] at h
  obtain ⟨id', hid, external', hf, h⟩ := h
  split at h
  · rename_i harity
    cases h
    have hname : (b.functions.map (·.1))[id]? = some name := by
      rw [hb.functions]
      exact Bindings.getElem?_of_findIdx? hid
    rw [List.getElem?_map] at hname
    obtain ⟨⟨_, body⟩, hbody, rfl⟩ := Option.map_eq_some_iff.1 hname
    have hcalls : ∀ call ∈ host.calls ++ [(id, args)], ∃ external, env.functions[call.1]? = some external ∧
        external.arity = call.2.length := by
      intro call hcall
      rcases List.mem_append.1 hcall with hcall | hcall
      · exact hhost.calls call hcall
      · cases List.mem_singleton.1 hcall
        exact ⟨external, hf, harity⟩
    have hfound := hbody
    rw [← hhost.functions] at hfound
    cases body with
    | some body =>
      simp only [Eval.ask, Host.callExternal, Bindings.callExternal, hfound]
      exact ⟨hhost.functions, hhost.globals, hcalls⟩
    | none =>
      simp only [Eval.ask, Host.callExternal, Bindings.callExternal, hfound]
      exact ⟨⟨hhost.functions, hhost.globals, hcalls⟩, id, hid, hbody⟩
  · cases h

end EvalM.Safe

/-! ## Evaluation -/

/-- Calls of functions of the program are safe. -/
structure Surroundings.Safe {σ : Type} (b : Bindings σ) (cx : Surroundings (Recorded (Bindings σ))) : Prop where
  serves : b.Serves cx.env
  call : ∀ f ∈ cx.program, ∀ args : List Word, args.length = f.params.length → (cx.call f args).Safe b cx.env
  conforms : cx.Conforms

namespace Eval

open EvalM

variable {σ : Type} {b : Bindings σ} {cx : Surroundings (Recorded (Bindings σ))} {f : Function} {a : Activation}

theorem read_safe {name : String} {slot : Slot} (ha : a.Fits f) (h : (cx.scope f).slot name = .ok slot) :
    (read cx a name).Safe b cx.env := by
  unfold read
  rcases ha.get?_cases h with ⟨v, hv⟩ | ⟨hv, id, hid⟩
  · simp only [hv]
    exact .pure v
  · simp only [hv, show cx.env.resolveGlobal? name = some id from hid]
    exact .loadGlobal hid

theorem write_safe {name : String} {slot : Slot} {v : Word} (ha : a.Fits f)
    (h : (cx.scope f).slot name = .ok slot) : (write cx a name v).Safe b cx.env := by
  unfold write
  rcases ha.get?_cases h with ⟨w, hw⟩ | ⟨hw, id, hid⟩
  · simp only [hw]
    exact .pure _
  · simp only [hw, show cx.env.resolveGlobal? name = some id from hid]
    exact (Safe.storeGlobal hid).bind fun _ _ _ _ => .pure a

theorem callNamed_safe {name : String} {args : List Word} {call : Instruction} {kind : FunctionKind}
    (hcx : cx.Safe b) (h : (cx.scope f).callee name args.length = .ok (call, kind)) :
    (callNamed cx name args).Safe b cx.env := by
  rcases cx.callee_cases h with ⟨id, g, hg, hfind, hargs, rfl, rfl⟩ | ⟨id, external, hfind, hr, rfl, rfl⟩
  · simp only [callNamed, hfind]
    exact hcx.call g (List.mem_of_getElem? hg) args hargs.symm
  · simp only [callNamed, hfind, hr]
    refine (Safe.callExternal hcx.serves hr).bind fun v _ _ _ => ?_
    cases external.kind with
    | func => exact .pure _
    | proc => exact .pure _

theorem evaluate_safe (op : Arith) (v w : Word) : (op.evaluate v w).Safe b cx.env := by
  unfold Arith.evaluate
  split
  · exact .pure _
  · exact .throw trivial
  · exact .throw trivial

mutual

theorem expr_safe {e : Expr} {start : Nat} {code : List Instruction} (hcx : cx.Safe b) (ha : a.Fits f)
    (h : Emit.value (cx.scope f) start e = .ok code) : (expr cx a e).Safe b cx.env := by
  match e with
  | .num n =>
    simp only [expr]
    exact .pure n
  | .var name =>
    obtain ⟨slot, hs, h⟩ := parts_ok h
    simp only [expr]
    exact read_safe ha hs
  | .unary .identity operand =>
    simp only [Emit.value] at h
    simp only [expr]
    exact expr_safe hcx ha h
  | .unary .negate operand =>
    obtain ⟨code', hv, h⟩ := parts_ok h
    simp only [expr]
    exact (expr_safe hcx ha hv).bind fun v _ _ _ => .pure _
  | .binary op left right =>
    obtain ⟨ca, hl, h⟩ := parts_ok h
    have hright : ∃ start code, Emit.value (cx.scope f) start right = .ok code := by
      split at h
      · obtain ⟨cb, hr, h⟩ := parts_ok h
        exact ⟨_, _, hr⟩
      · obtain ⟨cb, hr, h⟩ := parts_ok h
        exact ⟨_, _, hr⟩
    obtain ⟨start', cb, hr⟩ := hright
    have hlsafe := expr_safe hcx ha hl
    have hrsafe := expr_safe hcx ha hr
    cases hop : op.strict? with
    | some arith =>
      rw [expr_strict hop]
      exact hlsafe.bind fun x _ _ _ => hrsafe.bind fun y _ _ _ => evaluate_safe arith x y
    | none =>
      cases op with
      | or =>
        simp only [expr]
        refine hlsafe.bind fun x _ _ _ => ?_
        split
        · exact .pure _
        · exact hrsafe.bind fun y _ _ _ => .pure _
      | and =>
        simp only [expr]
        refine hlsafe.bind fun x _ _ _ => ?_
        split
        · exact .pure _
        · exact hrsafe.bind fun y _ _ _ => .pure _
      | _ => cases hop
  | .call name args =>
    simp only [Emit.value] at h
    obtain ⟨ca, hargs, h⟩ := parts_ok h
    obtain ⟨⟨call, kind⟩, hcall, h⟩ := parts_ok h
    cases kind with
    | proc => cases h
    | func =>
      simp only [expr]
      refine (exprs_safe hcx ha hargs).bind fun xs _ _ hxs => ?_
      rw [← exprs_length hxs] at hcall
      refine (callNamed_safe hcx hcall).bind fun r _ _ hr => ?_
      obtain ⟨v, rfl⟩ := Option.isSome_iff_exists.1 ((hcx.conforms.callNamed hcall hr).2 rfl)
      exact .pure v

theorem exprs_safe {es : List Expr} {start : Nat} {code : List Instruction} (hcx : cx.Safe b) (ha : a.Fits f)
    (h : Emit.values (cx.scope f) start es = .ok code) : (exprs cx a es).Safe b cx.env := by
  match es with
  | [] =>
    simp only [exprs]
    exact .pure _
  | e :: es =>
    simp only [Emit.values] at h
    obtain ⟨ca, hv, h⟩ := parts_ok h
    obtain ⟨cb, hvs, h⟩ := parts_ok h
    simp only [exprs]
    exact (expr_safe hcx ha hv).bind fun x _ _ _ => (exprs_safe hcx ha hvs).bind fun xs _ _ _ => .pure _

end

theorem stmt_expr_safe {e : Expr} {start : Nat} {code : List Instruction} (hcx : cx.Safe b) (ha : a.Fits f)
    (h : Emit.statement (cx.scope f) start (.expr e) = .ok code) : (stmt cx a (.expr e)).Safe b cx.env := by
  cases e with
  | call name args =>
    simp only [Emit.statement] at h
    obtain ⟨ca, hargs, h⟩ := parts_ok h
    obtain ⟨⟨call, kind⟩, hcall, h⟩ := parts_ok h
    simp only [stmt]
    refine (exprs_safe hcx ha hargs).bind fun xs _ _ hxs => ?_
    rw [← exprs_length hxs] at hcall
    exact (callNamed_safe hcx hcall).bind fun _ _ _ _ => .pure _
  | _ =>
    simp only [Emit.statement] at h
    obtain ⟨ca, hv, h⟩ := parts_ok h
    simp only [stmt]
    exact (expr_safe hcx ha hv).bind fun _ _ _ _ => .pure _

mutual

theorem stmt_safe {st : Stmt} {a : Activation} {start : Nat} {code : List Instruction} (hcx : cx.Safe b)
    (ha : a.Fits f) (h : Emit.statement (cx.scope f) start st = .ok code) : (stmt cx a st).Safe b cx.env := by
  match st with
  | .expr e => exact stmt_expr_safe hcx ha h
  | .set target e =>
    simp only [Emit.statement] at h
    obtain ⟨ca, hv, h⟩ := parts_ok h
    obtain ⟨slot, hs, h⟩ := parts_ok h
    simp only [stmt]
    exact (expr_safe hcx ha hv).bind fun v _ _ _ => (write_safe ha hs).bind fun _ _ _ _ => .pure _
  | .ret none =>
    simp only [stmt]
    exact .pure _
  | .ret (some e) =>
    simp only [Emit.statement] at h
    obtain ⟨ca, hv, h⟩ := parts_ok h
    simp only [stmt]
    exact (expr_safe hcx ha hv).bind fun v _ _ _ => .pure _
  | .ifThen test body =>
    simp only [Emit.statement] at h
    obtain ⟨ca, hv, h⟩ := parts_ok h
    obtain ⟨cb, hb, h⟩ := parts_ok h
    simp only [stmt]
    refine (expr_safe hcx ha hv).bind fun v _ _ _ => ?_
    split
    · exact .pure _
    · exact block_safe hcx ha hb
  | .ifElse test yes no =>
    simp only [Emit.statement] at h
    obtain ⟨ca, hv, h⟩ := parts_ok h
    obtain ⟨cb, hyes, h⟩ := parts_ok h
    obtain ⟨cc, hno, h⟩ := parts_ok h
    simp only [stmt]
    refine (expr_safe hcx ha hv).bind fun v _ _ _ => ?_
    split
    · exact block_safe hcx ha hno
    · exact block_safe hcx ha hyes

theorem block_safe {body : List Stmt} {a : Activation} {start : Nat} {code : List Instruction} (hcx : cx.Safe b)
    (ha : a.Fits f) (h : Emit.block (cx.scope f) start body = .ok code) : (block cx a body).Safe b cx.env := by
  match body with
  | [] =>
    simp only [block]
    exact .pure _
  | st :: rest =>
    simp only [Emit.block] at h
    obtain ⟨ca, hs, h⟩ := parts_ok h
    obtain ⟨cb, hb, h⟩ := parts_ok h
    simp only [block]
    refine (stmt_safe hcx ha hs).bind fun out _ _ hout => ?_
    cases out with
    | through a' => exact block_safe hcx (stmt_fits ha hout) hb
    | returned value => exact .pure _

end

/-- Functions of a linked program are safe, however many calls may still nest. -/
theorem function_safe {p : Program} {env : Environment} {image : Image} (hl : p.Linked env image)
    (hb : b.Serves env) (limit room : Nat) : ∀ f ∈ p, ∀ args : List Word, args.length = f.params.length →
      (function p env limit room f args : EvalM (Recorded (Bindings σ)) (Option Word)).Safe b env := by
  induction room with
  | zero =>
    intro f hf args hargs
    obtain ⟨id, hid⟩ := List.getElem?_of_mem hf
    obtain ⟨address, code, hcode, -, -⟩ := hl.code hid
    have hcx : Surroundings.Safe b ⟨p, env, fun _ _ => throw (.callDepthExceeded limit)⟩ :=
      ⟨hb, fun _ _ _ _ => .throw trivial, fun _ _ _ _ _ _ h => by cases h⟩
    unfold function
    refine (block_safe hcx (.start hargs) hcode).bind fun out _ _ _ => ?_
    cases out <;> exact .pure _
  | succ room ih =>
    intro f hf args hargs
    obtain ⟨id, hid⟩ := List.getElem?_of_mem hf
    obtain ⟨address, code, hcode, -, -⟩ := hl.code hid
    have hcx : Surroundings.Safe b ⟨p, env, function p env limit room⟩ :=
      ⟨hb, ih, fun g hg _ _ _ _ h => function_isSome (hl.verified g hg) h⟩
    unfold function
    refine (block_safe hcx (.start hargs) hcode).bind fun out _ _ _ => ?_
    cases out <;> exact .pure _

end Eval

/-! ## Calls on a machine -/

/-- A call of a function that the image has, with as many arguments as it takes, ends. It ends with a value if
the function is a `func`, without one if it is a `proc`, or with an expected fault; and each request to the host
had the declared number of arguments. -/
theorem Program.call_never_goes_wrong {p : Program} {env : Environment} {image : Image}
    (h : p.compile env = .ok image) {σ : Type} {b : Bindings σ} (hb : b.Serves env) (limit : Nat) {name : String}
    {id : Nat} {entry : Entry} (hentry : image.find? name = some (id, entry)) {args : List Word}
    (hargs : args.length = entry.params) (stack : Array Word) (frames : Array Frame) :
    ∃ (outcome : Except Fault (Option Word)) (s : State (Recorded (Bindings σ))),
      (Machine.mk image limit).Ends name args ⟨⟨b, []⟩, stack, frames⟩ (outcome, s) ∧
      (match outcome with
        | .ok value => value.isSome = true ↔ entry.kind = .func
        | .error fault => fault.Expected b env) ∧
      ∀ call ∈ s.host.calls, ∃ external, env.functions[call.1]? = some external ∧
        external.arity = call.2.length := by
  have hl := Program.Linked.of_compile h
  cases hf : p.find? (·.name == name) with
  | none => simp [hl.find?_none hf] at hentry
  | some f =>
    obtain ⟨id', address, body, hfind, -, -, -⟩ := hl.find?_some hf
    cases hfind.symm.trans hentry
    have hmem : f ∈ p := List.mem_of_find?_eq_some hf
    obtain ⟨⟨outcome, s⟩, hends, hfollows⟩ :=
      Program.Linked.call_function (η := Recorded (Bindings σ)) (m := ⟨image, limit⟩) hl hf hargs
        ⟨⟨b, []⟩, stack, frames⟩
    have hsafe := Eval.function_safe hl hb limit (limit - 1) f hmem args hargs ⟨b, []⟩ ⟨rfl, hb.globals, by simp⟩
    refine ⟨outcome, s, hends, ?_⟩
    simp only at hfollows
    split at hsafe
    · rename_i value host' hv
      rw [hv] at hfollows
      obtain ⟨rfl, rfl⟩ := hfollows
      exact ⟨Eval.function_isSome (hl.verified f hmem) hv, hsafe.calls⟩
    · rename_i fault host' hv
      rw [hv] at hfollows
      obtain ⟨⟨fault', rfl, hfault⟩, rfl⟩ := hfollows
      have hexpected := Fault.expected_unplaced.2 hsafe.2
      rw [← hfault] at hexpected
      exact ⟨Fault.expected_unplaced.1 hexpected, hsafe.1.calls⟩

theorem factorial_never_goes_wrong : factorial.compile notes = .ok factorialImage ∧ noting.Serves notes ∧
    factorialImage.find? "Fact" = some (0, ⟨"Fact", 1, 0, .func, 0⟩) ∧
    ∃ (outcome : Except Fault (Option Word)) (s : State (Recorded (Bindings (List Word)))),
      (Machine.mk factorialImage 3).Ends "Fact" [5] ⟨⟨noting, []⟩, #[], #[]⟩ (outcome, s) ∧
      (match outcome with
        | .ok value => value.isSome = true ↔ FunctionKind.func = .func
        | .error fault => fault.Expected noting notes) ∧
      ∀ call ∈ s.host.calls, ∃ external, notes.functions[call.1]? = some external ∧
        external.arity = call.2.length := by
  have hc : factorial.compile notes = .ok factorialImage := rfl
  have hentry : factorialImage.find? "Fact" = some (0, ⟨"Fact", 1, 0, .func, 0⟩) := by decide +kernel
  have hbind : (Bindings.ofEnvironment notes []).bind "note" (fun xs world => (0, world ++ xs)) =
      .ok (0, { noting with globals := [("count", 0)] }) := rfl
  have hset : Bindings.setGlobal { noting with globals := [("count", 0)] } "count" 7 = .ok noting := rfl
  have hb : noting.Serves notes := ((Bindings.serves_ofEnvironment notes []).bind hbind).setGlobal hset
  exact ⟨hc, hb, hentry, Program.call_never_goes_wrong hc hb 3 hentry rfl #[] #[]⟩

end Wordlang
