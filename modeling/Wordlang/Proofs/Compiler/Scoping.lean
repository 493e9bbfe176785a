import Wordlang.Proofs.Compiler.Layout

/-!
# Which programs compile

A program compiles if it is verified and everything that the bodies of its functions mention is there: a variable is a
parameter, a local or a global, a callee takes as many arguments as it gets, and it produces a value unless the call
is a statement of its own. What a tree mentions is listed without regard to code.

Main statement: `Program.compile_iff_wellScoped`.
-/

namespace Wordlang

/-! ## Checks that succeed -/

def Succeeds {ε α : Type} (x : Except ε α) : Prop := ∃ a, x = .ok a

section

variable {ε α β : Type}

@[simp]
theorem succeeds_pure (a : α) : Succeeds (pure a : Except ε α) := ⟨a, rfl⟩

@[simp]
theorem not_succeeds_throw (e : ε) : ¬ Succeeds (throw e : Except ε α) := by
  rintro ⟨a, h⟩
  cases h

theorem succeeds_bind {x : Except ε α} {f : α → Except ε β} :
    Succeeds (x >>= f) ↔ ∃ a, x = .ok a ∧ Succeeds (f a) := by
  constructor
  · rintro ⟨b, h⟩
    obtain ⟨a, hx, hf⟩ := parts_ok h
    exact ⟨a, hx, b, hf⟩
  · rintro ⟨a, rfl, hf⟩
    exact hf

/-- Where the first part succeeds and what it gives do not matter to the second, each is checked by itself. -/
theorem succeeds_bind_and {x : Except ε α} {f : α → Except ε β} {P Q : Prop} (hx : Succeeds x ↔ P)
    (hf : ∀ a, Succeeds (f a) ↔ Q) : Succeeds (x >>= f) ↔ P ∧ Q := by
  rw [succeeds_bind, ← hx]
  constructor
  · rintro ⟨a, ha, h⟩
    exact ⟨⟨a, ha⟩, (hf a).1 h⟩
  · rintro ⟨⟨a, ha⟩, hq⟩
    exact ⟨a, ha, (hf a).2 hq⟩

/-- A last part that cannot fail. -/
theorem succeeds_bind_pure {x : Except ε α} (g : α → β) : Succeeds (x >>= fun a => pure (g a)) ↔ Succeeds x := by
  rw [succeeds_bind_and Iff.rfl fun a => iff_true_intro (succeeds_pure (g a)), and_true]

/-- A check that fails has failed in one of its parts, and the parts before it have succeeded. -/
theorem parts_error {e : ε} {f : α → Except ε β} :
    ∀ {x : Except ε α}, (x >>= f) = .error e → x = .error e ∨ ∃ a, x = .ok a ∧ f a = .error e
  | .error _, h => by cases h; exact .inl rfl
  | .ok a, h => .inr ⟨a, rfl, h⟩

theorem succeeds_inFunction {f : Function} {x : Except CompileError.Cause α} :
    Succeeds (inFunction f x) ↔ Succeeds x := by
  constructor
  · rintro ⟨a, h⟩
    exact ⟨a, ok_of_inFunction h⟩
  · rintro ⟨a, rfl⟩
    exact ⟨a, rfl⟩

end

/-! ## What a tree mentions -/

/-- A place where a name stands for something. A call is `alone` if it is a statement of its own. -/
inductive Mention
  | variable (name : String)
  | call (callee : String) (argc : Nat) (alone : Bool)
  deriving DecidableEq, Repr

mutual

def Expr.mentions : Expr → List Mention
  | .num _ => []
  | .var name => [.variable name]
  | .unary _ operand => operand.mentions
  | .binary _ left right => left.mentions ++ right.mentions
  | .call callee args => Expr.mentionsOf args ++ [.call callee args.length false]

def Expr.mentionsOf : List Expr → List Mention
  | [] => []
  | e :: es => e.mentions ++ Expr.mentionsOf es

end

mutual

def Stmt.mentions : Stmt → List Mention
  | .expr (.call callee args) => Expr.mentionsOf args ++ [.call callee args.length true]
  | .expr e => e.mentions
  | .set target value => value.mentions ++ [.variable target]
  | .ret none => []
  | .ret (some e) => e.mentions
  | .ifThen test body => test.mentions ++ Stmt.mentionsOf body
  | .ifElse test yes no => test.mentions ++ (Stmt.mentionsOf yes ++ Stmt.mentionsOf no)

def Stmt.mentionsOf : List Stmt → List Mention
  | [] => []
  | s :: ss => s.mentions ++ Stmt.mentionsOf ss

end

/-- The number of arguments and the kind of what a program calls by a name. A function of the host counts only if the
program has none of that name, whatever the number of arguments. -/
def Program.callable? (p : Program) (env : Environment) (name : String) : Option (Nat × FunctionKind) :=
  ((p.find? (·.name == name)).map fun f => (f.params.length, f.kind)).or
    ((env.functions.find? (·.name == name)).map fun x => (x.arity, x.kind))

/-- What a function mentions is there. -/
def Mention.Resolves (p : Program) (env : Environment) (f : Function) : Mention → Prop
  | .variable name => name ∈ f.params ∨ name ∈ f.locals ∨ name ∈ env.globals
  | .call callee argc alone =>
    p.callable? env callee = some (argc, .func) ∨ alone = true ∧ p.callable? env callee = some (argc, .proc)

instance (p : Program) (env : Environment) (f : Function) : DecidablePred (Mention.Resolves p env f)
  | .variable name => inferInstanceAs (Decidable (name ∈ f.params ∨ name ∈ f.locals ∨ name ∈ env.globals))
  | .call callee argc alone => inferInstanceAs (Decidable (p.callable? env callee = some (argc, .func) ∨
    alone = true ∧ p.callable? env callee = some (argc, .proc)))

def Function.WellScoped (p : Program) (env : Environment) (f : Function) : Prop :=
  ∀ m ∈ Stmt.mentionsOf f.body, m.Resolves p env f

instance (p : Program) (env : Environment) (f : Function) : Decidable (f.WellScoped p env) :=
  inferInstanceAs (Decidable (∀ m ∈ Stmt.mentionsOf f.body, m.Resolves p env f))

/-! ## Names in a scope -/

section

variable {p : Program} {env : Environment} {f : Function}

theorem Scope.slot_succeeds_iff {table : Signatures} {name : String} :
    Succeeds ((Scope.mk f table env).slot name) ↔ (Mention.variable name).Resolves p env f := by
  unfold Scope.slot Environment.resolveGlobal? Mention.Resolves
  by_cases hparams : name ∈ f.params
  · obtain ⟨i, hi⟩ := Option.isSome_iff_exists.1 (List.isSome_idxOf?.2 hparams)
    simp [hi, hparams, Succeeds]
  · by_cases hlocals : name ∈ f.locals
    · obtain ⟨i, hi⟩ := Option.isSome_iff_exists.1 (List.isSome_idxOf?.2 hlocals)
      simp [List.idxOf?_eq_none_iff.2 hparams, hi, hlocals, Succeeds]
    · by_cases hglobals : name ∈ env.globals
      · obtain ⟨i, hi⟩ := Option.isSome_iff_exists.1 (List.isSome_idxOf?.2 hglobals)
        simp [List.idxOf?_eq_none_iff.2 hparams, List.idxOf?_eq_none_iff.2 hlocals, hi, hglobals, Succeeds]
      · simp [List.idxOf?_eq_none_iff.2 hparams, List.idxOf?_eq_none_iff.2 hlocals,
          List.idxOf?_eq_none_iff.2 hglobals, hparams, hlocals, hglobals, Succeeds]

theorem Environment.kind_resolveFunction? {name : String} {argc : Nat} {kind : FunctionKind} :
    (env.resolveFunction? name argc).map (·.2.kind) = some kind ↔
      (env.functions.find? (·.name == name)).map (fun x => (x.arity, x.kind)) = some (argc, kind) := by
  rw [List.find?_eq_bind_findIdx?_getElem?]
  unfold resolveFunction? functionId?
  cases hid : env.functions.findIdx? (·.name == name) with
  | none => simp
  | some id =>
    cases hx : env.functions[id]? with
    | none => simp [hx]
    | some x =>
      by_cases harity : x.arity = argc
      · simp [hx, harity]
      · simp [hx, harity]

theorem Scope.callee_eq_ok_iff {name : String} {argc : Nat} {kind : FunctionKind} :
    (∃ i, (Scope.mk f (Signatures.listing 0 p) env).callee name argc = .ok (i, kind)) ↔
      p.callable? env name = some (argc, kind) := by
  unfold Scope.callee Program.callable?
  cases hget : (Signatures.listing 0 p).get? name with
  | none =>
    rw [Signatures.listing_get?_none hget, Option.map_none, Option.none_or,
      ← Environment.kind_resolveFunction?]
    cases hresolve : env.resolveFunction? name argc with
    | none => simp
    | some found => simp
  | some signature =>
    obtain ⟨i, g, rfl, -, hfind⟩ := Signatures.listing_get?_some hget
    rw [hfind]
    by_cases harity : g.params.length = argc
    · simp [harity]
    · simp [harity]

/-- What is done with a callee may succeed for a procedure or not: it does if the call is a statement of its own. -/
theorem Scope.callee_bind_succeeds_iff {name : String} {argc : Nat} {alone : Bool} {β : Type}
    {use : Instruction × FunctionKind → Except CompileError.Cause β} (hfunc : ∀ i, Succeeds (use (i, .func)))
    (hproc : ∀ i, Succeeds (use (i, .proc)) ↔ alone = true) :
    Succeeds ((Scope.mk f (Signatures.listing 0 p) env).callee name argc >>= use) ↔
      (Mention.call name argc alone).Resolves p env f := by
  rw [succeeds_bind]
  constructor
  · rintro ⟨⟨i, kind⟩, hcallee, h⟩
    have hcallable := Scope.callee_eq_ok_iff.1 ⟨i, hcallee⟩
    cases kind with
    | func => exact .inl hcallable
    | proc => exact .inr ⟨(hproc i).1 h, hcallable⟩
  · rintro (h | ⟨halone, h⟩)
    · obtain ⟨i, hcallee⟩ := Scope.callee_eq_ok_iff.2 h
      exact ⟨_, hcallee, hfunc i⟩
    · obtain ⟨i, hcallee⟩ := Scope.callee_eq_ok_iff.2 h
      exact ⟨_, hcallee, (hproc i).2 halone⟩

/-! ## Code of trees -/

mutual

/-- The address does not matter to whether an expression has code. -/
theorem Emit.value_succeeds_iff : ∀ (e : Expr) (start : Nat),
    Succeeds (Emit.value ⟨f, Signatures.listing 0 p, env⟩ start e) ↔ ∀ m ∈ e.mentions, m.Resolves p env f
  | .num n, start => by simp [Emit.value, Expr.mentions]
  | .var name, start => by
    simp only [Emit.value, Expr.mentions, List.forall_mem_singleton, succeeds_bind_pure]
    exact Scope.slot_succeeds_iff
  | .unary .identity operand, start => by
    simp only [Emit.value, Expr.mentions]
    exact Emit.value_succeeds_iff operand start
  | .unary .negate operand, start => by
    simp only [Emit.value, Expr.mentions, succeeds_bind_pure]
    exact Emit.value_succeeds_iff operand start
  | .binary op left right, start => by
    simp only [Emit.value, Expr.mentions, List.forall_mem_append]
    refine succeeds_bind_and (Emit.value_succeeds_iff left start) fun a => ?_
    cases op.strict? with
    | some arith =>
      simp only [succeeds_bind_pure]
      exact Emit.value_succeeds_iff right _
    | none =>
      simp only [succeeds_bind_pure]
      exact Emit.value_succeeds_iff right _
  | .call name args, start => by
    simp only [Emit.value, Expr.mentions, List.forall_mem_append, List.forall_mem_singleton]
    refine succeeds_bind_and (Emit.values_succeeds_iff args start) fun code => ?_
    exact Scope.callee_bind_succeeds_iff (by simp) (by simp)

theorem Emit.values_succeeds_iff : ∀ (es : List Expr) (start : Nat),
    Succeeds (Emit.values ⟨f, Signatures.listing 0 p, env⟩ start es) ↔
      ∀ m ∈ Expr.mentionsOf es, m.Resolves p env f
  | [], start => by simp [Emit.values, Expr.mentionsOf]
  | e :: es, start => by
    simp only [Emit.values, Expr.mentionsOf, List.forall_mem_append]
    refine succeeds_bind_and (Emit.value_succeeds_iff e start) fun a => ?_
    simp only [succeeds_bind_pure]
    exact Emit.values_succeeds_iff es _

end

/-- An expression as a statement. Only a call is treated in a way of its own. -/
theorem Emit.statement_expr_succeeds_iff (e : Expr) (start : Nat) :
    Succeeds (Emit.statement ⟨f, Signatures.listing 0 p, env⟩ start (.expr e)) ↔
      ∀ m ∈ (Stmt.expr e).mentions, m.Resolves p env f := by
  cases e with
  | call name args =>
    simp only [Emit.statement, Stmt.mentions, List.forall_mem_append, List.forall_mem_singleton]
    refine succeeds_bind_and (Emit.values_succeeds_iff args start) fun code => ?_
    exact Scope.callee_bind_succeeds_iff (by simp) (by simp)
  | _ =>
    simp only [Emit.statement, Stmt.mentions, succeeds_bind_pure]
    exact Emit.value_succeeds_iff _ start

mutual

theorem Emit.statement_succeeds_iff : ∀ (s : Stmt) (start : Nat),
    Succeeds (Emit.statement ⟨f, Signatures.listing 0 p, env⟩ start s) ↔ ∀ m ∈ s.mentions, m.Resolves p env f
  | .expr e, start => Emit.statement_expr_succeeds_iff e start
  | .set target e, start => by
    simp only [Emit.statement, Stmt.mentions, List.forall_mem_append, List.forall_mem_singleton]
    refine succeeds_bind_and (Emit.value_succeeds_iff e start) fun code => ?_
    simp only [succeeds_bind_pure]
    exact Scope.slot_succeeds_iff
  | .ret none, start => by simp [Emit.statement, Stmt.mentions]
  | .ret (some e), start => by
    simp only [Emit.statement, Stmt.mentions, succeeds_bind_pure]
    exact Emit.value_succeeds_iff e start
  | .ifThen test body, start => by
    simp only [Emit.statement, Stmt.mentions, List.forall_mem_append]
    refine succeeds_bind_and (Emit.value_succeeds_iff test start) fun a => ?_
    simp only [succeeds_bind_pure]
    exact Emit.block_succeeds_iff body _
  | .ifElse test yes no, start => by
    simp only [Emit.statement, Stmt.mentions, List.forall_mem_append]
    refine succeeds_bind_and (Emit.value_succeeds_iff test start) fun a => ?_
    refine succeeds_bind_and (Emit.block_succeeds_iff yes _) fun b => ?_
    simp only [succeeds_bind_pure]
    exact Emit.block_succeeds_iff no _

theorem Emit.block_succeeds_iff : ∀ (ss : List Stmt) (start : Nat),
    Succeeds (Emit.block ⟨f, Signatures.listing 0 p, env⟩ start ss) ↔
      ∀ m ∈ Stmt.mentionsOf ss, m.Resolves p env f
  | [], start => by simp [Emit.block, Stmt.mentionsOf]
  | s :: ss, start => by
    simp only [Emit.block, Stmt.mentionsOf, List.forall_mem_append]
    refine succeeds_bind_and (Emit.statement_succeeds_iff s start) fun a => ?_
    simp only [succeeds_bind_pure]
    exact Emit.block_succeeds_iff ss _

end

/-! ## Code of programs -/

theorem Emit.function_succeeds_iff {start : Nat} :
    Succeeds (Emit.function (Signatures.listing 0 p) env start f) ↔ f.WellScoped p env := by
  unfold Emit.function
  rw [succeeds_inFunction, succeeds_bind_pure]
  exact Emit.block_succeeds_iff f.body start

theorem Emit.functions_succeeds_iff : ∀ {fs : List Function} {start : Nat},
    Succeeds (Emit.functions (Signatures.listing 0 p) env start fs) ↔ ∀ f ∈ fs, f.WellScoped p env
  | [], start => by simp [Emit.functions]
  | f :: fs, start => by
    simp only [Emit.functions, List.forall_mem_cons]
    refine succeeds_bind_and Emit.function_succeeds_iff fun a => ?_
    simp only [succeeds_bind_pure]
    exact Emit.functions_succeeds_iff

theorem function_of_inFunction {α : Type} {x : Except CompileError.Cause α} {e : CompileError}
    (h : inFunction f x = .error e) : e.function = f.name := by
  cases x with
  | ok a => cases h
  | error cause => cases h; rfl

/-- Functions are emitted in order, so an error is in the first one that is not well scoped. -/
theorem Emit.functions_error {e : CompileError} : ∀ {fs : List Function} {start : Nat},
    Emit.functions (Signatures.listing 0 p) env start fs = .error e →
      ∃ before f after, fs = before ++ f :: after ∧ (∀ g ∈ before, g.WellScoped p env) ∧
        ¬ f.WellScoped p env ∧ e.function = f.name
  | [], start, h => by cases h
  | f :: fs, start, h => by
    simp only [Emit.functions] at h
    rcases parts_error h with hf | ⟨code, hf, h⟩
    · refine ⟨[], f, fs, rfl, by simp, fun hscoped => ?_, function_of_inFunction hf⟩
      obtain ⟨code, hcode⟩ := Emit.function_succeeds_iff.2 hscoped
      cases hf.symm.trans hcode
    · have hscoped : f.WellScoped p env := Emit.function_succeeds_iff.1 ⟨code, hf⟩
      rcases parts_error h with hfs | ⟨rest, -, h⟩
      · obtain ⟨before, g, after, rfl, hbefore, hg, hname⟩ := Emit.functions_error hfs
        exact ⟨f :: before, g, after, rfl, List.forall_mem_cons.2 ⟨hscoped, hbefore⟩, hg, hname⟩
      · cases h

/-- A program compiles exactly if it is verified and all of its functions are well scoped. If not, what verification
says comes first, and then the first function that is not well scoped is the one that the error names. -/
theorem Program.compile_iff_wellScoped (p : Program) (env : Environment) :
    ((∃ image, p.compile env = .ok image) ↔ (∃ table, p.verify = .ok table) ∧ ∀ f ∈ p, f.WellScoped p env) ∧
    (∀ e, p.verify = .error e → p.compile env = .error e) ∧
    (∀ table e, p.verify = .ok table → p.compile env = .error e →
      ∃ before f after, p = before ++ f :: after ∧ (∀ g ∈ before, g.WellScoped p env) ∧ ¬ f.WellScoped p env ∧
        e.function = f.name) := by
  refine ⟨?_, fun e hv => by rw [Program.compile, hv]; rfl, fun table e hv h => ?_⟩
  · cases hv : p.verify with
    | error e =>
      rw [Program.compile, hv]
      constructor
      · rintro ⟨image, h⟩
        cases h
      · rintro ⟨⟨table, h⟩, -⟩
        cases h
    | ok table =>
      obtain ⟨rfl, -⟩ := Program.verify_eq_ok hv
      have hcompile : Succeeds (p.compile env) ↔ ∀ f ∈ p, f.WellScoped p env := by
        rw [Program.compile, hv]
        exact (succeeds_bind_pure _).trans Emit.functions_succeeds_iff
      exact hcompile.trans (iff_and_self.2 fun _ => ⟨_, rfl⟩)
  · rcases parts_error h with herror | ⟨table', hv', h⟩
    · cases hv.symm.trans herror
    · obtain ⟨rfl, -⟩ := Program.verify_eq_ok hv'
      rcases parts_error h with hfs | ⟨result, -, h⟩
      · exact Emit.functions_error hfs
      · cases h

end

/-- Calls a function of its own with the number of arguments that the host's function of that name takes, and then
uses the value of a procedure. -/
def shadowing : Program := [
  ⟨"note", [], [], [.set "count" (.num 0)], .proc⟩,
  ⟨"Twice", ["n"], [], [.expr (.call "note" []), .expr (.call "note" [.var "n"])], .proc⟩,
  ⟨"Value", [], [], [.ret (some (.call "note" []))], .func⟩]

def shadowed : Environment := ⟨[⟨"note", 1, .func⟩], ["count"]⟩

example : shadowing.map (fun f => decide (f.WellScoped shadowing shadowed)) = [true, false, false] := by decide

theorem shadowing_not_wellScoped :
    shadowing.verify = .ok [("note", ⟨0, 0, .proc⟩), ("Twice", ⟨1, 1, .proc⟩), ("Value", ⟨2, 0, .func⟩)] ∧
    shadowing.compile shadowed = .error ⟨"Twice", .wrongArity "note" 0 1⟩ ∧
    ∃ before f after, shadowing = before ++ f :: after ∧ (∀ g ∈ before, g.WellScoped shadowing shadowed) ∧
      ¬ f.WellScoped shadowing shadowed ∧ "Twice" = f.name := by
  have hv : shadowing.verify = .ok [("note", ⟨0, 0, .proc⟩), ("Twice", ⟨1, 1, .proc⟩), ("Value", ⟨2, 0, .func⟩)] := rfl
  have hc : shadowing.compile shadowed = .error ⟨"Twice", .wrongArity "note" 0 1⟩ := rfl
  exact ⟨hv, hc, (Program.compile_iff_wellScoped shadowing shadowed).2.2 _ _ hv hc⟩

end Wordlang
