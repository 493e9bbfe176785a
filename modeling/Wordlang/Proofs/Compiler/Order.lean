import Wordlang.Proofs.Check.Verdict
import Wordlang.Proofs.Compiler.Refinement

/-!
# The order of declarations does not matter

A permutation of the functions of a program changes their ids, where their code stands and where it jumps. Whether the
program compiles and how its calls end stay the same, since both follow from what a name is found to mean, and in a
program whose functions have different names this does not depend on their order.

Main statement: `Program.order_is_irrelevant`.
-/

namespace Wordlang

namespace Program

variable {p q : Program} {env : Environment}

/-! ## Names -/

/-- The functions found by name are those of the program, if no two have the same name. -/
theorem find?_eq_some_iff (hp : (p.map (·.name)).Nodup) {name : String} {f : Function} :
    p.find? (·.name == name) = some f ↔ f ∈ p ∧ f.name = name := by
  induction p with
  | nil => simp
  | cons g p ih =>
    rw [List.map_cons, List.nodup_cons] at hp
    by_cases hg : g.name = name
    · rw [List.find?_cons_of_pos (by simpa using hg), Option.some.injEq]
      constructor
      · rintro rfl
        exact ⟨List.mem_cons_self, hg⟩
      · rintro ⟨_ | ⟨_, hf⟩, hname⟩
        · rfl
        · exact absurd (List.mem_map.2 ⟨f, hf, hname.trans hg.symm⟩) hp.1
    · rw [List.find?_cons_of_neg (by simpa using hg), ih hp.2, List.mem_cons]
      constructor
      · rintro ⟨hf, hname⟩
        exact ⟨.inr hf, hname⟩
      · rintro ⟨rfl | hf, hname⟩
        · exact absurd hname hg
        · exact ⟨hf, hname⟩

theorem find?_eq_of_perm (h : p.Perm q) (hp : (p.map (·.name)).Nodup) (name : String) :
    p.find? (·.name == name) = q.find? (·.name == name) := by
  have hq : (q.map (·.name)).Nodup := (h.map _).nodup_iff.1 hp
  refine Option.ext fun f => ?_
  rw [find?_eq_some_iff hp, find?_eq_some_iff hq, h.mem_iff]

/-! ## Acceptance -/

theorem compile_succeeds_iff :
    Succeeds (p.compile env) ↔ p.WellFormed ∧ ∀ f ∈ p, f.WellScoped p env := by
  rw [← verify_succeeds_iff]
  unfold Program.compile
  cases hv : p.verify with
  | error e =>
    refine iff_of_false (not_succeeds_throw e) ?_
    rintro ⟨⟨table, h⟩, -⟩
    cases h
  | ok table =>
    obtain ⟨rfl, -⟩ := verify_eq_ok hv
    have hemit : Succeeds (Emit.functions (Signatures.listing 0 p) env 0 p) ↔ ∀ f ∈ p, f.WellScoped p env :=
      Emit.functions_succeeds_iff
    rw [and_iff_right ⟨_, rfl⟩, ← hemit]
    exact succeeds_bind_pure _

theorem WellFormed.perm (h : p.Perm q) (hp : p.WellFormed) : q.WellFormed :=
  ⟨(h.map _).nodup_iff.1 hp.names, fun f hf => hp.functions f (h.mem_iff.2 hf)⟩

/-- What a function mentions is found in every order of the declarations. -/
theorem wellScoped_iff_of_perm (h : p.Perm q) (hp : (p.map (·.name)).Nodup) (f : Function) :
    f.WellScoped p env ↔ f.WellScoped q env := by
  have hcallable : p.callable? env = q.callable? env := by
    funext name
    unfold Program.callable?
    rw [find?_eq_of_perm h hp]
  refine forall_congr' fun m => imp_congr_right fun _ => ?_
  cases m with
  | call callee argc alone => simp only [Mention.Resolves, hcallable]
  | _ => exact Iff.rfl

theorem compile_succeeds_of_perm (h : p.Perm q) (hp : Succeeds (p.compile env)) : Succeeds (q.compile env) := by
  rw [compile_succeeds_iff] at hp ⊢
  obtain ⟨hformed, hscoped⟩ := hp
  refine ⟨hformed.perm h, fun f hf => ?_⟩
  exact (wellScoped_iff_of_perm h hformed.names f).1 (hscoped f (h.mem_iff.2 hf))

end Program

/-! ## Evaluation -/

namespace Eval

variable {η : Type} [Host η] {c c' : Surroundings η}

theorem callNamed_congr (hfind : ∀ name : String, c.program.find? (·.name == name) = c'.program.find? (·.name == name))
    (henv : c.env = c'.env) (hcall : c.call = c'.call) : callNamed c = callNamed c' := by
  funext name args
  simp only [callNamed, hfind, henv, hcall]

theorem read_congr (henv : c.env = c'.env) (a : Activation) (name : String) : read c a name = read c' a name := by
  simp only [read, henv]

theorem write_congr (henv : c.env = c'.env) (a : Activation) (name : String) (v : Word) :
    write c a name v = write c' a name v := by
  simp only [write, henv]

mutual

/-- Expressions see the program only through the calls of functions by name. -/
theorem expr_congr (henv : c.env = c'.env) (hcall : callNamed c = callNamed c') (a : Activation) :
    ∀ e : Expr, expr c a e = expr c' a e
  | .num n => by simp only [expr]
  | .var name => by simp only [expr, read_congr henv a name]
  | .unary .identity operand => by simp only [expr, expr_congr henv hcall a operand]
  | .unary .negate operand => by simp only [expr, expr_congr henv hcall a operand]
  | .binary op left right => by
    have hleft := expr_congr henv hcall a left
    have hright := expr_congr henv hcall a right
    cases hop : op.strict? with
    | some arith => rw [expr_strict hop, expr_strict hop, hleft, hright]
    | none =>
      cases op with
      | or => simp only [expr, hleft, hright]
      | and => simp only [expr, hleft, hright]
      | _ => cases hop
  | .call name args => by simp only [expr, exprs_congr henv hcall a args, hcall]

theorem exprs_congr (henv : c.env = c'.env) (hcall : callNamed c = callNamed c') (a : Activation) :
    ∀ es : List Expr, exprs c a es = exprs c' a es
  | [] => by simp only [exprs]
  | e :: es => by simp only [exprs, expr_congr henv hcall a e, exprs_congr henv hcall a es]

end

theorem stmt_expr_congr (henv : c.env = c'.env) (hcall : callNamed c = callNamed c') (a : Activation) (e : Expr) :
    stmt c a (.expr e) = stmt c' a (.expr e) := by
  cases e with
  | call name args => simp only [stmt, exprs_congr henv hcall a args, hcall]
  | _ => simp only [stmt, expr_congr henv hcall]

mutual

theorem stmt_congr (henv : c.env = c'.env) (hcall : callNamed c = callNamed c') (a : Activation) :
    ∀ s : Stmt, stmt c a s = stmt c' a s
  | .expr e => stmt_expr_congr henv hcall a e
  | .set target e => by simp only [stmt, expr_congr henv hcall, write_congr henv]
  | .ret none => by simp only [stmt]
  | .ret (some e) => by simp only [stmt, expr_congr henv hcall]
  | .ifThen test body => by simp only [stmt, expr_congr henv hcall, block_congr henv hcall a body]
  | .ifElse test yes no => by
    simp only [stmt, expr_congr henv hcall, block_congr henv hcall a yes, block_congr henv hcall a no]

theorem block_congr (henv : c.env = c'.env) (hcall : callNamed c = callNamed c') (a : Activation) :
    ∀ ss : List Stmt, block c a ss = block c' a ss
  | [] => by simp only [block]
  | s :: rest => by
    simp only [block, stmt_congr henv hcall a s]
    refine congrArg _ (funext fun out => ?_)
    cases out with
    | through a' => exact block_congr henv hcall a' rest
    | returned value => rfl

end

end Eval

/-- A function does the same in two programs in which names mean the same functions. -/
theorem Eval.function_congr {η : Type} [Host η] {p q : Program}
    (hfind : ∀ name : String, p.find? (·.name == name) = q.find? (·.name == name)) (env : Environment)
    (limit room : Nat) :
    (function p env limit room : Function → List Word → EvalM η (Option Word)) = function q env limit room := by
  have hblock (call : Function → List Word → EvalM η (Option Word)) (a : Activation) (body : List Stmt) :
      block ⟨p, env, call⟩ a body = block ⟨q, env, call⟩ a body := by
    apply block_congr
    · rfl
    · exact callNamed_congr hfind rfl rfl
  induction room with
  | zero =>
    funext f args
    unfold function
    simp only [hblock]
  | succ room ih =>
    funext f args
    unfold function
    simp only [hblock, ih]

/-! ## Calls -/

/-- The same end of a call, up to the addresses in faults: the same result or fault, and the same host. -/
def SameEnd {η : Type} (r r' : Except Fault (Option Word) × State η) : Prop :=
  r.1.mapError Fault.unplaced = r'.1.mapError Fault.unplaced ∧ r.2.host = r'.2.host

/-- Calls that both end as one evaluation does have the same end. -/
theorem Follows.sameEnd {η : Type} {r r' : Except Fault (Option Word) × State η}
    {x : EStateM.Result Fault η (Option Word)} (h : Follows r x) (h' : Follows r' x) : SameEnd r r' := by
  cases x with
  | ok value host =>
    obtain ⟨hv, hh⟩ := h
    obtain ⟨hv', hh'⟩ := h'
    exact ⟨by rw [hv, hv'], hh.trans hh'.symm⟩
  | error fault host =>
    obtain ⟨⟨fault₁, hv, hf⟩, hh⟩ := h
    obtain ⟨⟨fault₂, hv', hf'⟩, hh'⟩ := h'
    refine ⟨?_, hh.trans hh'.symm⟩
    rw [hv, hv']
    exact congrArg Except.error (hf.trans hf'.symm)

/-- A program compiles exactly if each permutation of its functions does. Calls on either image end, from the same host
and under the same limit, with the same result and host, its record of requests included, and with the same fault up to
its address. -/
theorem Program.order_is_irrelevant {p q : Program} (h : p.Perm q) (env : Environment) :
    ((∃ image, p.compile env = .ok image) ↔ ∃ image, q.compile env = .ok image) ∧
    ∀ image image', p.compile env = .ok image → q.compile env = .ok image' →
      ∀ (η : Type) [Host η] (limit : Nat) (name : String) (args : List Word) (s s' : State (Recorded η)),
        s.host = s'.host → ∃ r r', (Machine.mk image limit).Ends name args s r ∧
          (Machine.mk image' limit).Ends name args s' r' ∧ SameEnd r r' := by
  refine ⟨⟨compile_succeeds_of_perm h, compile_succeeds_of_perm h.symm⟩, ?_⟩
  intro image image' hp hq η _ limit name args s s' hhost
  have hnames := (compile_succeeds_iff.1 ⟨image, hp⟩).1.names
  have hfind := find?_eq_of_perm h hnames
  have hl := Program.Linked.of_compile hp
  have hl' := Program.Linked.of_compile hq
  cases hf : p.find? (·.name == name) with
  | none =>
    have hf' : q.find? (·.name == name) = none := (hfind name).symm.trans hf
    refine ⟨(.error (.unknownFunction name), s), (.error (.unknownFunction name), s'),
      Machine.ends_of_call (n := 0) ?_, Machine.ends_of_call (n := 0) ?_, rfl, hhost⟩
    · simp only [Machine.call, hl.find?_none hf]
    · simp only [Machine.call, hl'.find?_none hf']
  | some f =>
    have hf' : q.find? (·.name == name) = some f := (hfind name).symm.trans hf
    by_cases hargs : args.length = f.params.length
    · obtain ⟨r, hends, hfollows⟩ := Program.Linked.call_function (m := ⟨image, limit⟩) hl hf hargs s
      obtain ⟨r', hends', hfollows'⟩ := Program.Linked.call_function (m := ⟨image', limit⟩) hl' hf' hargs s'
      rw [Eval.function_congr hfind, hhost] at hfollows
      exact ⟨r, r', hends, hends', hfollows.sameEnd hfollows'⟩
    · obtain ⟨id, address, body, himage, -, -, -⟩ := hl.find?_some hf
      obtain ⟨id', address', body', himage', -, -, -⟩ := hl'.find?_some hf'
      refine ⟨(.error (.wrongArgumentCount name f.params.length args.length), s),
        (.error (.wrongArgumentCount name f.params.length args.length), s'),
        Machine.ends_of_call (n := 0) ?_, Machine.ends_of_call (n := 0) ?_, rfl, hhost⟩
      · simp only [Machine.call, himage]
        exact if_pos hargs
      · simp only [Machine.call, himage']
        exact if_pos hargs

/-- Each of two functions calls the other. -/
def even : Function := ⟨"Even", ["n"], [], [.ifThen (.binary .equal (.var "n") (.num 0)) [.ret (some (.num 1))],
  .ret (some (.call "Odd" [.binary .sub (.var "n") (.num 1)]))], .func⟩

def odd : Function := ⟨"Odd", ["n"], [], [.ifThen (.binary .equal (.var "n") (.num 0)) [.ret (some (.num 0))],
  .ret (some (.call "Even" [.binary .sub (.var "n") (.num 1)]))], .func⟩

/-- The code of either: it tests the argument and returns `zero` or calls the function `other`. -/
def parityCode (start other : Nat) (zero : Word) : List Instruction :=
  [.load (.arg 0), .push 0, .arith .equal, .jumpIfZero (start + 6), .push zero, .retValue,
    .load (.arg 0), .push 1, .arith .sub, .call other 1, .retValue]

def evenFirst : Image :=
  ⟨(parityCode 0 1 1 ++ parityCode 11 0 0).toArray, #[⟨"Even", 1, 0, .func, 0⟩, ⟨"Odd", 1, 0, .func, 11⟩]⟩

def oddFirst : Image :=
  ⟨(parityCode 0 1 0 ++ parityCode 11 0 1).toArray, #[⟨"Odd", 1, 0, .func, 0⟩, ⟨"Even", 1, 0, .func, 11⟩]⟩

theorem parity_order_is_irrelevant :
    [even, odd].Perm [odd, even] ∧ Program.compile [even, odd] notes = .ok evenFirst ∧
    Program.compile [odd, even] notes = .ok oddFirst ∧
    ∃ r r' : Except Fault (Option Word) × State (Recorded (Bindings (List Word))),
      (Machine.mk evenFirst 5).Ends "Even" [4] ⟨⟨noting, []⟩, #[], #[]⟩ r ∧
      (Machine.mk oddFirst 5).Ends "Even" [4] ⟨⟨noting, []⟩, #[], #[]⟩ r' ∧ SameEnd r r' := by
  have hperm : [even, odd].Perm [odd, even] := .swap odd even []
  have heven : Program.compile [even, odd] notes = .ok evenFirst := rfl
  have hodd : Program.compile [odd, even] notes = .ok oddFirst := rfl
  refine ⟨hperm, heven, hodd, ?_⟩
  exact (Program.order_is_irrelevant hperm notes).2 _ _ heven hodd _ 5 "Even" [4] _ _ rfl

end Wordlang
