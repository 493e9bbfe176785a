import Wordlang.Proofs.Compiler.Refinement
import Wordlang.Proofs.Environment.Registration

/-!
# More symbols do not change compiled code

An environment that grows keeps what it had at its places. A name is looked up in the environment last, behind the
parameters and locals of the function and behind the functions of the program, and a program compiles only if each
lookup finds something. So a new symbol is found by no name that was found before, and the code stays the same.

Main statement: `Program.compile_of_registerAll`.
-/

namespace Wordlang

/-! ## Growing environments -/

/-- The symbols of `env` come first in `env'`, in the same order. -/
structure Environment.Extends (env' env : Environment) : Prop where
  functions : env.functions <+: env'.functions
  globals : env.globals <+: env'.globals

namespace Environment

/-- The environment after further registrations. -/
def registerAll (env : Environment) (rs : List Registration) : Environment :=
  rs.foldl (fun env r => (env.register r).2) env

namespace Extends

variable {env env' : Environment}

theorem refl (env : Environment) : env.Extends env := ⟨List.prefix_rfl, List.prefix_rfl⟩

theorem resolveGlobal? (h : env'.Extends env) {name : String} {id : Nat} (hid : env.resolveGlobal? name = some id) :
    env'.resolveGlobal? name = some id := by
  obtain ⟨more, hmore⟩ := h.globals
  rw [Environment.resolveGlobal?] at hid ⊢
  rw [← hmore]
  exact idxOf?_append hid

theorem resolveFunction? (h : env'.Extends env) {name : String} {argc : Nat} {found : Nat × External}
    (hf : env.resolveFunction? name argc = some found) : env'.resolveFunction? name argc = some found := by
  obtain ⟨more, hmore⟩ := h.functions
  obtain ⟨id, hid, hf⟩ := Option.bind_eq_some_iff.1 hf
  obtain ⟨f, hget, hf⟩ := Option.bind_eq_some_iff.1 hf
  have hid' : env'.functionId? name = some id := by
    rw [functionId?] at hid ⊢
    rw [← hmore, List.findIdx?_append, hid, Option.some_or]
  have hget' : env'.functions[id]? = some f := by
    rw [← hmore, List.getElem?_append_left (List.getElem?_eq_some_iff.1 hget).1]
    exact hget
  exact Option.bind_eq_some_iff.2 ⟨id, hid', Option.bind_eq_some_iff.2 ⟨f, hget', hf⟩⟩

/-- A symbol that `env` does not have lies behind those of `env`, also if it is registered again. -/
theorem register (h : env'.Extends env) {r : Registration} (hnew : env.idOf? r = none) :
    (env'.register r).2.Extends env := by
  cases r with
  | function f =>
    obtain ⟨more, hmore⟩ := h.functions
    cases hid : env'.functionId? f.name with
    | none =>
      rw [register_new hid]
      exact ⟨h.functions.trans (List.prefix_append _ _), h.globals⟩
    | some id =>
      have hbehind : env.functions.length ≤ id := by
        rw [idOf?, functionId?] at hnew
        rw [functionId?, ← hmore, List.findIdx?_append, hnew, Option.none_or, Option.map_eq_some_iff] at hid
        obtain ⟨i, -, rfl⟩ := hid
        exact Nat.le_add_left _ _
      rw [register_known hid]
      refine ⟨?_, h.globals⟩
      rw [← hmore, List.set_append_right id f hbehind]
      exact List.prefix_append _ _
  | global name =>
    cases hid : env'.resolveGlobal? name with
    | none =>
      rw [register_newGlobal hid]
      exact ⟨h.functions, h.globals.trans (List.prefix_append _ _)⟩
    | some id =>
      rw [register_knownGlobal hid]
      exact h

theorem registerAll (h : env'.Extends env) {rs : List Registration} (hnew : ∀ r ∈ rs, env.idOf? r = none) :
    (env'.registerAll rs).Extends env := by
  induction rs generalizing env' with
  | nil => exact h
  | cons r rs ih =>
    rw [List.forall_mem_cons] at hnew
    exact ih (h.register hnew.1) hnew.2

end Extends

end Environment

/-! ## Results that stay -/

/-- What the first computation gives, the second gives too. -/
def Stays {ε α : Type} (x y : Except ε α) : Prop := ∀ a, x = .ok a → y = .ok a

namespace Stays

variable {ε α β : Type} {x y : Except ε α}

theorem refl (x : Except ε α) : Stays x x := fun _ h => h

theorem bind {f g : α → Except ε β} (h : Stays x y) (hf : ∀ a, Stays (f a) (g a)) : Stays (x >>= f) (y >>= g) := by
  intro b hb
  obtain ⟨a, ha, hb⟩ := parts_ok hb
  rw [h a ha]
  exact hf a b hb

theorem inFunction {x y : Except CompileError.Cause α} (h : Stays x y) (f : Function) :
    Stays (inFunction f x) (inFunction f y) := by
  intro a ha
  rw [h a (ok_of_inFunction ha)]
  rfl

end Stays

/-! ## Names and code -/

section

variable {env env' : Environment} {f : Function} {table : Signatures}

/-- A name that is no parameter and no local was found among the globals. -/
theorem Scope.slot_stays (h : env'.Extends env) (name : String) :
    Stays (Scope.slot ⟨f, table, env⟩ name) (Scope.slot ⟨f, table, env'⟩ name) := by
  intro slot hslot
  unfold Scope.slot at hslot ⊢
  cases hparam : f.params.idxOf? name with
  | some i =>
    simp only [hparam] at hslot ⊢
    exact hslot
  | none =>
    cases hlocal : f.locals.idxOf? name with
    | some i =>
      simp only [hparam, hlocal] at hslot ⊢
      exact hslot
    | none =>
      simp only [hparam, hlocal] at hslot ⊢
      cases hglobal : env.resolveGlobal? name with
      | none =>
        rw [hglobal] at hslot
        cases hslot
      | some id =>
        rw [hglobal] at hslot
        rw [h.resolveGlobal? hglobal]
        exact hslot

/-- A callee that is not the program's was found among the functions of the host, with this number of arguments. -/
theorem Scope.callee_stays (h : env'.Extends env) (name : String) (argc : Nat) :
    Stays (Scope.callee ⟨f, table, env⟩ name argc) (Scope.callee ⟨f, table, env'⟩ name argc) := by
  intro callee hcallee
  unfold Scope.callee at hcallee ⊢
  cases hown : table.get? name with
  | some signature =>
    simp only [hown] at hcallee ⊢
    exact hcallee
  | none =>
    simp only [hown] at hcallee ⊢
    cases hhost : env.resolveFunction? name argc with
    | none =>
      rw [hhost] at hcallee
      cases hcallee
    | some found =>
      rw [hhost] at hcallee
      rw [h.resolveFunction? hhost]
      exact hcallee

namespace Emit

mutual

theorem value_stays (h : env'.Extends env) : ∀ (e : Expr) (start : Nat),
    Stays (value ⟨f, table, env⟩ start e) (value ⟨f, table, env'⟩ start e)
  | .num n, start => by
    simp only [value]
    exact .refl _
  | .var name, start => by
    simp only [value]
    exact (Scope.slot_stays h name).bind fun slot => .refl _
  | .unary .identity operand, start => by
    simp only [value]
    exact value_stays h operand start
  | .unary .negate operand, start => by
    simp only [value]
    exact (value_stays h operand start).bind fun a => .refl _
  | .binary op left right, start => by
    simp only [value]
    refine (value_stays h left start).bind fun a => ?_
    cases op.strict? with
    | some arith => exact (value_stays h right _).bind fun b => .refl _
    | none => exact (value_stays h right _).bind fun b => .refl _
  | .call name args, start => by
    simp only [value]
    refine (values_stays h args start).bind fun code => ?_
    exact (Scope.callee_stays h name args.length).bind fun callee => .refl _

theorem values_stays (h : env'.Extends env) : ∀ (es : List Expr) (start : Nat),
    Stays (values ⟨f, table, env⟩ start es) (values ⟨f, table, env'⟩ start es)
  | [], start => by
    simp only [values]
    exact .refl _
  | e :: es, start => by
    simp only [values]
    exact (value_stays h e start).bind fun a => (values_stays h es _).bind fun b => .refl _

end

theorem statement_expr_stays (h : env'.Extends env) (e : Expr) (start : Nat) :
    Stays (statement ⟨f, table, env⟩ start (.expr e)) (statement ⟨f, table, env'⟩ start (.expr e)) := by
  cases e with
  | call name args =>
    simp only [statement]
    refine (values_stays h args start).bind fun code => ?_
    exact (Scope.callee_stays h name args.length).bind fun callee => .refl _
  | _ =>
    simp only [statement]
    exact (value_stays h _ start).bind fun a => .refl _

mutual

theorem statement_stays (h : env'.Extends env) : ∀ (s : Stmt) (start : Nat),
    Stays (statement ⟨f, table, env⟩ start s) (statement ⟨f, table, env'⟩ start s)
  | .expr e, start => statement_expr_stays h e start
  | .set target e, start => by
    simp only [statement]
    exact (value_stays h e start).bind fun code => (Scope.slot_stays h target).bind fun slot => .refl _
  | .ret none, start => by
    simp only [statement]
    exact .refl _
  | .ret (some e), start => by
    simp only [statement]
    exact (value_stays h e start).bind fun a => .refl _
  | .ifThen test body, start => by
    simp only [statement]
    exact (value_stays h test start).bind fun a => (block_stays h body _).bind fun b => .refl _
  | .ifElse test yes no, start => by
    simp only [statement]
    refine (value_stays h test start).bind fun a => (block_stays h yes _).bind fun b => ?_
    exact (block_stays h no _).bind fun c => .refl _

theorem block_stays (h : env'.Extends env) : ∀ (ss : List Stmt) (start : Nat),
    Stays (block ⟨f, table, env⟩ start ss) (block ⟨f, table, env'⟩ start ss)
  | [], start => by
    simp only [block]
    exact .refl _
  | s :: ss, start => by
    simp only [block]
    exact (statement_stays h s start).bind fun a => (block_stays h ss _).bind fun b => .refl _

end

theorem functions_stays (h : env'.Extends env) : ∀ (fs : List Function) (start : Nat),
    Stays (functions table env start fs) (functions table env' start fs)
  | [], start => .refl _
  | f :: fs, start => by
    have hfunction : Stays (function table env start f) (function table env' start f) :=
      ((block_stays h f.body start).bind fun code => .refl _).inFunction f
    simp only [functions]
    exact hfunction.bind fun a => (functions_stays h fs _).bind fun b => .refl _

end Emit

end

/-! ## Programs -/

/-- If a program compiles, it compiles to the same image after any further registrations under names that are new
among the functions or among the globals, whatever these names mean in the program. -/
theorem Program.compile_of_registerAll {p : Program} {env : Environment} {image : Image}
    (h : p.compile env = .ok image) {rs : List Registration} (hnew : ∀ r ∈ rs, env.idOf? r = none) :
    p.compile (env.registerAll rs) = .ok image := by
  have hextends := (Environment.Extends.refl env).registerAll hnew
  have hstays : Stays (p.compile env) (p.compile (env.registerAll rs)) := by
    unfold Program.compile
    exact (Stays.refl _).bind fun table => (Emit.functions_stays hextends p 0).bind fun parts => .refl _
  exact hstays image h

/-- Registers the names of the function and of its parameter, and the names of the known global and of the known
function once more, each as the other sort of symbol. The first of them comes again with another arity. -/
def namesakes : List Registration :=
  [.function ⟨"Fact", 3, .proc⟩, .global "n", .function ⟨"count", 0, .func⟩, .global "note",
    .function ⟨"Fact", 1, .func⟩]

theorem factorial_compile_of_namesakes : factorial.compile notes = .ok factorialImage ∧
    (∀ r ∈ namesakes, notes.idOf? r = none) ∧
    notes.registerAll namesakes =
      ⟨[⟨"note", 1, .proc⟩, ⟨"Fact", 1, .func⟩, ⟨"count", 0, .func⟩], ["count", "n", "note"]⟩ ∧
    factorial.compile (notes.registerAll namesakes) = .ok factorialImage := by
  have hc : factorial.compile notes = .ok factorialImage := rfl
  have hnew : ∀ r ∈ namesakes, notes.idOf? r = none := by
    simp only [namesakes, List.forall_mem_cons]
    exact ⟨rfl, rfl, rfl, rfl, rfl, List.forall_mem_nil _⟩
  exact ⟨hc, hnew, rfl, Program.compile_of_registerAll hc hnew⟩

end Wordlang
