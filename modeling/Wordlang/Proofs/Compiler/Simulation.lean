import Wordlang.Proofs.Compiler.Returns

/-!
# Compiled code does what the tree means

The code of an expression leaves its value on the stack, the code of a statement does to the frame what the
statement does to the activation, and the code of a function returns what the function returns.
-/

namespace Wordlang

variable {η : Type}

/-- The names that the code of a function can refer to. -/
def Surroundings.scope (cx : Surroundings η) (f : Function) : Scope :=
  ⟨f, Signatures.listing 0 cx.program, cx.env⟩

/-- The two ways in which a name is called. -/
theorem Surroundings.callee_cases {cx : Surroundings η} {f : Function} {name : String} {argc : Nat}
    {call : Instruction} {kind : FunctionKind} (h : (cx.scope f).callee name argc = .ok (call, kind)) :
    (∃ id g, cx.program[id]? = some g ∧ cx.program.find? (·.name == name) = some g ∧
      g.params.length = argc ∧ call = .call id argc ∧ kind = g.kind) ∨
    (∃ id external, cx.program.find? (·.name == name) = none ∧
      cx.env.resolveFunction? name argc = some (id, external) ∧
      call = .callExternal id argc external.kind ∧ kind = external.kind) := by
  unfold Scope.callee at h
  split at h
  · rename_i signature hs
    obtain ⟨i, g, rfl, hg, hfind⟩ := Signatures.listing_get?_some hs
    split at h
    · rename_i harity
      cases h
      exact .inl ⟨i, g, hg, hfind, harity, by simp, rfl⟩
    · cases h
  · rename_i hs
    split at h
    · rename_i id external hr
      cases h
      exact .inr ⟨id, external, Signatures.listing_get?_none hs, hr, rfl, rfl⟩
    · cases h

variable [Host η]

namespace Eval

variable {cx : Surroundings η} {a : Activation}

theorem exprs_length {host host' : η} : ∀ {es : List Expr} {xs : List Word},
    exprs cx a es host = .ok xs host' → xs.length = es.length
  | [], xs, h => by
    simp only [exprs] at h
    cases h
    rfl
  | e :: es, xs, h => by
    simp only [exprs] at h
    obtain ⟨x, mid, -, h⟩ := EvalM.bind_eq_ok h
    obtain ⟨ys, mid', hy, h⟩ := EvalM.bind_eq_ok h
    cases h
    rw [List.length_cons, List.length_cons, exprs_length hy]

/-- An operator that always evaluates both operands. -/
theorem expr_strict {op : BinaryOp} {arith : Arith} (h : op.strict? = some arith) (left right : Expr) :
    expr cx a (.binary op left right) = (do
      let x ← expr cx a left
      let y ← expr cx a right
      arith.evaluate x y) := by
  cases op with
  | or => cases h
  | and => cases h
  | add | sub | mul => cases h; simp only [expr]; rfl
  | less | greater | equal | notEqual => cases h; simp only [expr, truth_eq_ofBool]; rfl
  | div => cases h; simp only [expr, quotient_eq_evaluate]

end Eval

/-- Functions of the program have results as their kinds say. -/
def Surroundings.Conforms (cx : Surroundings η) : Prop :=
  ∀ f ∈ cx.program, ∀ (args : List Word) (host host' : η) (r : Option Word),
    cx.call f args host = .ok r host' → (r.isSome = true ↔ f.kind = .func)

/-- What `call` gives for functions of the program is what call instructions do, at a depth of calls. -/
structure Surroundings.Runs (cx : Surroundings η) (m : Machine) (depth : Nat) : Prop where
  simulates : ∀ {id : Nat} {f : Function} {args : List Word} {c : Caller} {a : Activation} {pc : Nat}
    {ops : List Word},
    cx.program[id]? = some f → args.length = f.params.length → c.frames.length = depth →
    m.image.code[pc]? = some (.call id args.length) →
    Simulates m (cx.call f args) (a.landing c pc (ops ++ args)) fun r => a.landing c (pc + 1) (ops ++ r.toList)
  conforms : cx.Conforms

/-- A name that is called has a result as its kind says. -/
theorem Surroundings.Conforms.callNamed {cx : Surroundings η} (hcx : cx.Conforms) {f : Function} {name : String}
    {args : List Word} {call : Instruction} {kind : FunctionKind} {host host' : η} {r : Option Word}
    (h : (cx.scope f).callee name args.length = .ok (call, kind))
    (hr : Eval.callNamed cx name args host = .ok r host') : r.isSome = true ↔ kind = .func := by
  rcases cx.callee_cases h with ⟨id, g, hg, hfind, hargs, rfl, rfl⟩ | ⟨id, external, hfind, hres, rfl, rfl⟩
  · simp only [Eval.callNamed, hfind] at hr
    exact hcx g (List.mem_of_getElem? hg) _ _ _ _ hr
  · simp only [Eval.callNamed, hfind, hres] at hr
    obtain ⟨v, mid, -, hr⟩ := EvalM.bind_eq_ok hr
    cases hk : external.kind with
    | func =>
      simp only [hk] at hr
      cases hr
      simp
    | proc =>
      simp only [hk] at hr
      cases hr
      simp

namespace Simulates

variable {m : Machine} {cx : Surroundings η} {f : Function} {c : Caller} {a : Activation}

/-! ## Calls -/

theorem callNamed {name : String} {args ops : List Word} {pc : Nat} {call : Instruction} {kind : FunctionKind}
    (hcx : cx.Runs m c.frames.length) (h : (cx.scope f).callee name args.length = .ok (call, kind))
    (hi : m.image.code[pc]? = some call) :
    Simulates m (Eval.callNamed cx name args) (a.landing c pc (ops ++ args)) fun r =>
      a.landing c (pc + 1) (ops ++ r.toList) := by
  rcases cx.callee_cases h with ⟨id, g, hg, hfind, hargs, rfl, rfl⟩ | ⟨id, external, hfind, hr, rfl, rfl⟩
  · simp only [Eval.callNamed, hfind]
    exact hcx.simulates hg hargs.symm rfl hi
  · simp only [Eval.callNamed, hfind, hr]
    refine (callExternal hi rfl).bind fun v _ _ _ => ?_
    cases external.kind with
    | func => exact of_eq rfl
    | proc => exact of_eq rfl

/-! ## Expressions -/

/-- The right operand of `&&` or `||` becomes a truth value, and the run goes on behind the operator. -/
theorem truth {x : EvalM η Word} {pc pc' target : Nat} {ops : List Word} {d : List Instruction}
    (hx : Simulates m x (a.landing c pc ops) fun v => a.landing c pc' (ops ++ [v]))
    (hm : m.image.Holds pc' (.push 0 :: .arith .notEqual :: .jump target :: d)) :
    Simulates m (do return Eval.truth ((← x) ≠ 0)) (a.landing c pc ops) fun r =>
      a.landing c target (ops ++ [r]) := by
  refine hx.bind fun v _ _ _ => after (push hm.head) ?_
  rw [Eval.truth_eq_ofBool]
  show Simulates m (Arith.notEqual.evaluate v 0 >>= pure) _ _
  exact (arith hm.tail.head).bind fun r _ _ _ => after (jump hm.tail.tail.head) (of_eq rfl)

/-- An operator that leaves out its right operand when the left one decides. -/
theorem shortCircuit {op : BinaryOp} {left right : Expr} {start stop : Nat} {ca cb : List Instruction}
    {ops : List Word} (hstop : stop = start + ca.length + cb.length + 4 + 1) (hop : op.strict? = none)
    (hl : Simulates m (Eval.expr cx a left) (a.landing c start ops) fun v =>
      a.landing c (start + ca.length) (ops ++ [v]))
    (hr : Simulates m (Eval.expr cx a right) (a.landing c (start + ca.length + 1) ops) fun v =>
      a.landing c (start + ca.length + 1 + cb.length) (ops ++ [v]))
    (hs : m.image.code[start + ca.length]? = some (Emit.skipRight op (start + ca.length + cb.length + 4)))
    (hm : m.image.Holds (start + ca.length + 1 + cb.length)
      [.push 0, .arith .notEqual, .jump (start + ca.length + cb.length + 4 + 1), .push (Emit.decided op)]) :
    Simulates m (Eval.expr cx a (.binary op left right)) (a.landing c start ops) fun v =>
      a.landing c stop (ops ++ [v]) := by
  subst hstop
  have hpush : m.image.code[start + ca.length + cb.length + 4]? = some (.push (Emit.decided op)) := by
    have := hm.tail.tail.tail.head
    rwa [show start + ca.length + 1 + cb.length + 1 + 1 + 1 = start + ca.length + cb.length + 4 by omega] at this
  cases op with
  | or =>
    simp only [Eval.expr]
    refine hl.bind fun v _ _ _ => after (jumpIfNonZero hs) ?_
    by_cases hv : v = 0
    · simp only [hv, ne_eq, not_true, if_true, if_false]
      exact truth hr hm
    · simp only [hv, ne_eq, not_false_eq_true, if_true, if_false]
      exact after (push hpush) (of_eq rfl)
  | and =>
    simp only [Eval.expr]
    refine hl.bind fun v _ _ _ => after (jumpIfZero hs) ?_
    by_cases hv : v = 0
    · simp only [hv, if_true]
      exact after (push hpush) (of_eq rfl)
    · simp only [hv, if_false]
      exact truth hr hm
  | _ => cases hop

mutual

theorem value {e : Expr} {start : Nat} {code : List Instruction} {ops : List Word}
    (hcx : cx.Runs m c.frames.length) (ha : a.Fits f) (h : Emit.value (cx.scope f) start e = .ok code)
    (hm : m.image.Holds start code) :
    Simulates m (Eval.expr cx a e) (a.landing c start ops) fun v =>
      a.landing c (start + code.length) (ops ++ [v]) := by
  match e with
  | .num n =>
    cases h
    simp only [Eval.expr]
    exact after (push hm.head) (of_eq rfl)
  | .var name =>
    obtain ⟨slot, hs, h⟩ := parts_ok h
    cases h
    simp only [Eval.expr]
    exact load hm.head hs ha rfl
  | .unary .identity operand =>
    simp only [Emit.value] at h
    simp only [Eval.expr]
    exact value hcx ha h hm
  | .unary .negate operand =>
    obtain ⟨code', hv, h⟩ := parts_ok h
    cases h
    simp only [Eval.expr]
    refine (value hcx ha hv hm.left).bind fun v _ _ _ => ?_
    rw [List.length_append, ← Nat.add_assoc]
    exact after (neg hm.right.head) (of_eq rfl)
  | .binary op left right =>
    obtain ⟨ca, hl, h⟩ := parts_ok h
    cases hop : op.strict? with
    | some arith =>
      simp only [hop] at h
      obtain ⟨cb, hr, h⟩ := parts_ok h
      cases h
      rw [Eval.expr_strict hop]
      refine (value hcx ha hl hm.left.left).bind fun x _ _ _ => ?_
      refine (value hcx ha hr hm.left.right).bind fun y _ _ _ => ?_
      rw [List.length_append, List.length_append, ← Nat.add_assoc, ← Nat.add_assoc]
      exact Simulates.arith (by simpa [Nat.add_assoc] using hm.right.head)
    | none =>
      simp only [hop] at h
      obtain ⟨cb, hr, h⟩ := parts_ok h
      cases h
      have hjump := hm.left.left.right
      have hright := hm.left.right
      have hrest := hm.right
      simp only [List.length_append, List.length_singleton, ← Nat.add_assoc] at hright hrest
      refine shortCircuit ?_ hop (value hcx ha hl hm.left.left.left) (value hcx ha hr hright) hjump.head hrest
      simp only [List.length_append, List.length_cons, List.length_nil]
      omega
  | .call name args =>
    simp only [Emit.value] at h
    obtain ⟨ca, hargs, h⟩ := parts_ok h
    obtain ⟨⟨call, kind⟩, hcall, h⟩ := parts_ok h
    cases kind with
    | proc => cases h
    | func =>
      cases h
      simp only [Eval.expr]
      refine (values hcx ha hargs hm.left).bind fun xs _ _ hxs => ?_
      rw [← Eval.exprs_length hxs] at hcall
      refine (callNamed hcx hcall hm.right.head).bind fun r _ _ hr => ?_
      obtain ⟨v, rfl⟩ := Option.isSome_iff_exists.1 ((hcx.conforms.callNamed hcall hr).2 rfl)
      exact of_eq (by rw [List.length_append]; rfl)

theorem values {es : List Expr} {start : Nat} {code : List Instruction} {ops : List Word}
    (hcx : cx.Runs m c.frames.length) (ha : a.Fits f) (h : Emit.values (cx.scope f) start es = .ok code)
    (hm : m.image.Holds start code) :
    Simulates m (Eval.exprs cx a es) (a.landing c start ops) fun xs =>
      a.landing c (start + code.length) (ops ++ xs) := by
  match es with
  | [] =>
    cases h
    simp only [Eval.exprs]
    exact of_eq (by simp)
  | e :: es =>
    simp only [Emit.values] at h
    obtain ⟨ca, hv, h⟩ := parts_ok h
    obtain ⟨cb, hvs, h⟩ := parts_ok h
    cases h
    simp only [Eval.exprs]
    refine (value hcx ha hv hm.left).bind fun x _ _ _ => ?_
    refine (values hcx ha hvs hm.right).bind fun xs _ _ _ => ?_
    exact of_eq (by simp [Nat.add_assoc])

end

/-! ## Statements -/

/-- Where a run stands when statements have ended. -/
def landingOf (c : Caller) (pc : Nat) : Completion → Landing
  | .through a => a.landing c pc []
  | .returned value => c.resumed value

theorem statement_expr {e : Expr} {start : Nat} {code : List Instruction} (hcx : cx.Runs m c.frames.length)
    (ha : a.Fits f) (h : Emit.statement (cx.scope f) start (.expr e) = .ok code) (hm : m.image.Holds start code) :
    Simulates m (Eval.stmt cx a (.expr e)) (a.landing c start []) (landingOf c (start + code.length)) := by
  cases e with
  | call name args =>
    simp only [Emit.statement] at h
    obtain ⟨ca, hargs, h⟩ := parts_ok h
    obtain ⟨⟨call, kind⟩, hcall, h⟩ := parts_ok h
    simp only [Eval.stmt]
    cases kind with
    | func =>
      cases h
      refine (values hcx ha hargs hm.left).bind fun xs _ _ hxs => ?_
      rw [← Eval.exprs_length hxs] at hcall
      refine (callNamed hcx hcall hm.right.head).bind fun r _ _ hr => ?_
      obtain ⟨v, rfl⟩ := Option.isSome_iff_exists.1 ((hcx.conforms.callNamed hcall hr).2 rfl)
      exact after (pop hm.right.tail.head) (of_eq (by simp [landingOf, Nat.add_assoc]))
    | proc =>
      cases h
      refine (values hcx ha hargs hm.left).bind fun xs _ _ hxs => ?_
      rw [← Eval.exprs_length hxs] at hcall
      refine (callNamed hcx hcall hm.right.head).bind fun r _ _ hr => ?_
      have hnone : r = none := by
        have := (hcx.conforms.callNamed hcall hr).1
        cases r <;> simp_all
      subst hnone
      exact of_eq (by simp [landingOf, Nat.add_assoc])
  | _ =>
    simp only [Emit.statement] at h
    obtain ⟨ca, hv, h⟩ := parts_ok h
    cases h
    simp only [Eval.stmt]
    refine (value hcx ha hv hm.left).bind fun v _ _ _ => ?_
    exact after (pop hm.right.head) (of_eq (by simp [landingOf, Nat.add_assoc]))

mutual

theorem statement {st : Stmt} {a : Activation} {start : Nat} {code : List Instruction}
    (hcx : cx.Runs m c.frames.length) (ha : a.Fits f)
    (h : Emit.statement (cx.scope f) start st = .ok code) (hm : m.image.Holds start code) :
    Simulates m (Eval.stmt cx a st) (a.landing c start []) (landingOf c (start + code.length)) := by
  match st with
  | .expr e => exact statement_expr hcx ha h hm
  | .set target e =>
    simp only [Emit.statement] at h
    obtain ⟨ca, hv, h⟩ := parts_ok h
    obtain ⟨slot, hs, h⟩ := parts_ok h
    cases h
    simp only [Eval.stmt]
    refine (value hcx ha hv hm.left).bind fun v _ _ _ => ?_
    refine (store hm.right.head hs ha rfl).bind fun a' _ _ _ => ?_
    exact of_eq (by simp [landingOf, Nat.add_assoc])
  | .ret none =>
    cases h
    simp only [Eval.stmt]
    exact after (ret hm.head) (of_eq rfl)
  | .ret (some e) =>
    simp only [Emit.statement] at h
    obtain ⟨ca, hv, h⟩ := parts_ok h
    cases h
    simp only [Eval.stmt]
    refine (value hcx ha hv hm.left).bind fun v _ _ _ => ?_
    exact after (retValue hm.right.head) (of_eq rfl)
  | .ifThen test body =>
    simp only [Emit.statement] at h
    obtain ⟨ca, hv, h⟩ := parts_ok h
    obtain ⟨cb, hb, h⟩ := parts_ok h
    cases h
    simp only [Eval.stmt]
    refine (value hcx ha hv hm.left.left).bind fun v _ _ _ => after (jumpIfZero hm.left.right.head) ?_
    have hbody := hm.right
    simp only [List.length_append, List.length_singleton, ← Nat.add_assoc] at hbody ⊢
    split
    · rw [Nat.add_right_comm]
      exact of_eq rfl
    · exact block hcx ha hb hbody
  | .ifElse test yes no =>
    simp only [Emit.statement] at h
    obtain ⟨ca, hv, h⟩ := parts_ok h
    obtain ⟨cb, hyes, h⟩ := parts_ok h
    obtain ⟨cc, hno, h⟩ := parts_ok h
    cases h
    simp only [Eval.stmt]
    refine (value hcx ha hv hm.left.left.left.left).bind fun v _ _ _ =>
      after (jumpIfZero hm.left.left.left.right.head) ?_
    have hthen := hm.left.left.right
    have hjump := hm.left.right
    have helse := hm.right
    simp only [List.length_append, List.length_singleton, ← Nat.add_assoc] at hthen hjump helse ⊢
    have e : start + ca.length + 1 + cb.length + 1 = start + ca.length + cb.length + 2 := by omega
    rw [e] at helse ⊢
    split
    · exact block hcx ha hno helse
    · refine (block hcx ha hyes hthen).before fun out => ?_
      cases out with
      | through a' => exact after (jump hjump.head) (of_eq rfl)
      | returned value => exact of_eq rfl

theorem block {body : List Stmt} {a : Activation} {start : Nat} {code : List Instruction}
    (hcx : cx.Runs m c.frames.length) (ha : a.Fits f)
    (h : Emit.block (cx.scope f) start body = .ok code) (hm : m.image.Holds start code) :
    Simulates m (Eval.block cx a body) (a.landing c start []) (landingOf c (start + code.length)) := by
  match body with
  | [] =>
    cases h
    simp only [Eval.block]
    exact of_eq rfl
  | st :: rest =>
    simp only [Emit.block] at h
    obtain ⟨ca, hs, h⟩ := parts_ok h
    obtain ⟨cb, hb, h⟩ := parts_ok h
    cases h
    simp only [Eval.block]
    refine (statement hcx ha hs hm.left).bind fun out _ _ hout => ?_
    cases out with
    | through a' =>
      rw [List.length_append, ← Nat.add_assoc]
      exact block hcx (Eval.stmt_fits ha hout) hb hm.right
    | returned value => exact of_eq rfl

end

/-! ## Functions -/

/-- The body of a verified function, with what stands behind it. -/
theorem body {args : List Word} {address : Nat} {code : List Instruction} (hcx : cx.Runs m c.frames.length)
    (hf : f.verify = .ok ()) (hargs : args.length = f.params.length)
    (hb : Emit.block (cx.scope f) address f.body = .ok code)
    (hm : m.image.Holds address (code ++ Emit.terminator f)) :
    Simulates m (do
      match ← Eval.block cx (.start f args) f.body with
      | .through _ => return none
      | .returned value => return value) ((Activation.start f args).landing c address []) c.resumed := by
  refine (block hcx (.start hargs) hb hm.left).bind fun out _ _ hout => ?_
  cases out with
  | through a' =>
    have hret := hm.right
    rw [Eval.terminator_of_through hf hout] at hret
    exact after (ret hret.head) (of_eq rfl)
  | returned value => exact of_eq rfl

/-- The code of a function of a linked program. The induction is on the calls that may still nest. -/
theorem function {p : Program} {env : Environment} (hl : p.Linked env m.image) : ∀ (room : Nat) {f : Function}
    {args : List Word} {c : Caller} {address : Nat} {code : List Instruction}, f ∈ p →
    args.length = f.params.length → room = m.maxCallDepth - (c.frames.length + 1) →
    Emit.block ⟨f, Signatures.listing 0 p, env⟩ address f.body = .ok code →
    m.image.Holds address (code ++ Emit.terminator f) →
    Simulates m (Eval.function p env m.maxCallDepth room f args : EvalM η (Option Word))
      ((Activation.start f args).landing c address []) c.resumed := by
  intro room
  induction room with
  | zero =>
    intro f args c address code hf hargs hroom hb hm
    have hcx : Surroundings.Runs (η := η) ⟨p, env, fun _ _ => throw (.callDepthExceeded m.maxCallDepth)⟩ m
        c.frames.length := by
      refine ⟨fun {id g xs c' a pc ops} _ _ hc hi => callDepthExceeded hi (by omega), fun _ _ _ _ _ _ h => ?_⟩
      cases h
    unfold Eval.function
    exact body hcx (hl.verified f hf) hargs hb hm
  | succ room ih =>
    intro f args c address code hf hargs hroom hb hm
    have hcx : Surroundings.Runs (η := η) ⟨p, env, Eval.function p env m.maxCallDepth room⟩ m c.frames.length := by
      refine ⟨fun {id g xs c' a pc ops} hg hxs hc hi => ?_,
        fun _ hg _ _ _ _ h => Eval.function_isSome (hl.verified _ hg) h⟩
      obtain ⟨address', code', hb', hm', he⟩ := hl.code hg
      refine after (enterFunction hi rfl he hxs.symm (by omega)) ?_
      refine (ih (List.mem_of_getElem? hg) hxs (by simp; omega) hb' hm').before fun r => of_eq ?_
      simp [Activation.landing, Caller.resumed]
    unfold Eval.function
    exact body hcx (hl.verified f hf) hargs hb hm

end Simulates

end Wordlang
