import Wordlang.Proofs.Compiler.Layout
import Wordlang.Proofs.Machine.Moves

/-!
# Jumps lead forward

The language has no loops, and its code has none either: a jump in the code of an expression, a statement or a block
leads forward, at most to the address behind that code.

Main statement: `Program.forward_of_compile`.
-/

namespace Wordlang

namespace Emit

/-- The jumps in code that starts at `start` lead forward, but not behind `stop`. -/
def JumpsWithin (start stop : Nat) (code : List Instruction) : Prop :=
  ∀ (i : Nat) (instruction : Instruction), code[i]? = some instruction →
    ∀ target ∈ instruction.target?, start + i < target ∧ target ≤ stop

namespace JumpsWithin

variable {start stop : Nat} {code code' : List Instruction} {first : Instruction}

theorem nil : JumpsWithin start stop [] := by
  intro i instruction hi
  simp at hi

theorem cons (hfirst : ∀ target ∈ first.target?, start < target ∧ target ≤ stop)
    (h : JumpsWithin (start + 1) stop code) : JumpsWithin start stop (first :: code) := by
  intro i instruction hi target htarget
  cases i with
  | zero =>
    cases (by simpa using hi : first = instruction)
    exact hfirst target htarget
  | succ i =>
    have := h i instruction (by simpa using hi) target htarget
    omega

/-- An instruction that is no jump. -/
theorem plain (hfirst : first.target? = none) (h : JumpsWithin (start + 1) stop code) :
    JumpsWithin start stop (first :: code) :=
  cons (by simp [hfirst]) h

/-- A jump. -/
theorem jump {target : Nat} (hfirst : first.target? = some target) (hlt : start < target) (hle : target ≤ stop)
    (h : JumpsWithin (start + 1) stop code) : JumpsWithin start stop (first :: code) := by
  refine cons (fun t ht => ?_) h
  cases hfirst.symm.trans ht
  exact ⟨hlt, hle⟩

theorem append (h : JumpsWithin start stop code) (h' : JumpsWithin (start + code.length) stop code') :
    JumpsWithin start stop (code ++ code') := by
  induction code generalizing start with
  | nil => simpa using h'
  | cons first code ih =>
    refine cons (fun target htarget => h 0 first rfl target htarget) (ih ?_ ?_)
    · intro i instruction hi target htarget
      have := h (i + 1) instruction (by simpa using hi) target htarget
      omega
    · rw [List.length_cons, ← Nat.add_assoc, Nat.add_right_comm] at h'
      exact h'

end JumpsWithin

theorem callee_target? {s : Scope} {name : String} {argc : Nat} {call : Instruction} {kind : FunctionKind}
    (h : s.callee name argc = .ok (call, kind)) : call.target? = none := by
  unfold Scope.callee at h
  split at h
  · split at h
    · cases h
      rfl
    · cases h
  · split at h
    · cases h
      rfl
    · cases h

theorem skipRight_target? (op : BinaryOp) (target : Nat) : (skipRight op target).target? = some target := by
  unfold skipRight
  split <;> rfl

mutual

theorem value_jumps {s : Scope} {e : Expr} {start stop : Nat} {code : List Instruction}
    (h : value s start e = .ok code) (hstop : start + code.length ≤ stop) : JumpsWithin start stop code := by
  match e with
  | .num n =>
    cases h
    exact .plain rfl .nil
  | .var name =>
    obtain ⟨slot, -, h⟩ := parts_ok h
    cases h
    exact .plain rfl .nil
  | .unary .identity operand =>
    simp only [value] at h
    exact value_jumps h hstop
  | .unary .negate operand =>
    obtain ⟨a, ha, h⟩ := parts_ok h
    cases h
    rw [List.length_append] at hstop
    exact .append (value_jumps ha (by omega)) (.plain rfl .nil)
  | .binary op left right =>
    obtain ⟨a, ha, h⟩ := parts_ok h
    cases hop : op.strict? with
    | some arith =>
      simp only [hop] at h
      obtain ⟨b, hb, h⟩ := parts_ok h
      cases h
      simp only [List.length_append] at hstop
      exact .append (.append (value_jumps ha (by omega)) (value_jumps hb (by omega))) (.plain rfl .nil)
    | none =>
      simp only [hop] at h
      obtain ⟨b, hb, h⟩ := parts_ok h
      cases h
      simp only [List.length_append, List.length_cons, List.length_nil] at hstop
      simp only [List.append_assoc, List.singleton_append]
      refine .append (value_jumps ha (by omega)) (.jump (skipRight_target? _ _) (by omega) (by omega) ?_)
      refine .append (value_jumps hb (by omega)) (.plain rfl (.plain rfl ?_))
      exact .jump rfl (by omega) (by omega) (.plain rfl .nil)
  | .call name args =>
    simp only [value] at h
    obtain ⟨a, ha, h⟩ := parts_ok h
    obtain ⟨⟨call, kind⟩, hcall, h⟩ := parts_ok h
    cases kind with
    | func =>
      cases h
      rw [List.length_append] at hstop
      exact .append (values_jumps ha (by omega)) (.plain (callee_target? hcall) .nil)
    | proc => cases h

theorem values_jumps {s : Scope} {es : List Expr} {start stop : Nat} {code : List Instruction}
    (h : values s start es = .ok code) (hstop : start + code.length ≤ stop) : JumpsWithin start stop code := by
  match es with
  | [] =>
    cases h
    exact .nil
  | e :: es =>
    simp only [values] at h
    obtain ⟨a, ha, h⟩ := parts_ok h
    obtain ⟨b, hb, h⟩ := parts_ok h
    cases h
    rw [List.length_append] at hstop
    exact .append (value_jumps ha (by omega)) (values_jumps hb (by omega))

end

theorem statement_expr_jumps {s : Scope} {e : Expr} {start stop : Nat} {code : List Instruction}
    (h : statement s start (.expr e) = .ok code) (hstop : start + code.length ≤ stop) :
    JumpsWithin start stop code := by
  cases e with
  | call name args =>
    simp only [statement] at h
    obtain ⟨a, ha, h⟩ := parts_ok h
    obtain ⟨⟨call, kind⟩, hcall, h⟩ := parts_ok h
    cases kind with
    | func =>
      cases h
      rw [List.length_append] at hstop
      exact .append (values_jumps ha (by omega)) (.plain (callee_target? hcall) (.plain rfl .nil))
    | proc =>
      cases h
      rw [List.length_append] at hstop
      exact .append (values_jumps ha (by omega)) (.plain (callee_target? hcall) .nil)
  | _ =>
    simp only [statement] at h
    obtain ⟨a, ha, h⟩ := parts_ok h
    cases h
    rw [List.length_append] at hstop
    exact .append (value_jumps ha (by omega)) (.plain rfl .nil)

mutual

theorem statement_jumps {s : Scope} {stmt : Stmt} {start stop : Nat} {code : List Instruction}
    (h : statement s start stmt = .ok code) (hstop : start + code.length ≤ stop) : JumpsWithin start stop code := by
  match stmt with
  | .expr e => exact statement_expr_jumps h hstop
  | .set target e =>
    simp only [statement] at h
    obtain ⟨a, ha, h⟩ := parts_ok h
    obtain ⟨slot, -, h⟩ := parts_ok h
    cases h
    rw [List.length_append] at hstop
    exact .append (value_jumps ha (by omega)) (.plain rfl .nil)
  | .ret none =>
    cases h
    exact .plain rfl .nil
  | .ret (some e) =>
    simp only [statement] at h
    obtain ⟨a, ha, h⟩ := parts_ok h
    cases h
    rw [List.length_append] at hstop
    exact .append (value_jumps ha (by omega)) (.plain rfl .nil)
  | .ifThen test body =>
    simp only [statement] at h
    obtain ⟨a, ha, h⟩ := parts_ok h
    obtain ⟨b, hb, h⟩ := parts_ok h
    cases h
    simp only [List.length_append, List.length_cons, List.length_nil] at hstop
    rw [List.append_assoc, List.singleton_append]
    exact .append (value_jumps ha (by omega)) (.jump rfl (by omega) (by omega) (block_jumps hb (by omega)))
  | .ifElse test yes no =>
    simp only [statement] at h
    obtain ⟨a, ha, h⟩ := parts_ok h
    obtain ⟨b, hb, h⟩ := parts_ok h
    obtain ⟨c, hc, h⟩ := parts_ok h
    cases h
    simp only [List.length_append, List.length_cons, List.length_nil] at hstop
    simp only [List.append_assoc, List.singleton_append]
    have hstart : start + a.length + 1 + b.length + 1 = start + a.length + b.length + 2 := by omega
    have hno : JumpsWithin (start + a.length + 1 + b.length + 1) stop c := by
      rw [hstart]
      exact block_jumps hc (by omega)
    refine .append (value_jumps ha (by omega)) (.jump rfl (by omega) (by omega) ?_)
    exact .append (block_jumps hb (by omega)) (.jump rfl (by omega) (by omega) hno)

theorem block_jumps {s : Scope} {body : List Stmt} {start stop : Nat} {code : List Instruction}
    (h : block s start body = .ok code) (hstop : start + code.length ≤ stop) : JumpsWithin start stop code := by
  match body with
  | [] =>
    cases h
    exact .nil
  | stmt :: rest =>
    simp only [block] at h
    obtain ⟨a, ha, h⟩ := parts_ok h
    obtain ⟨b, hb, h⟩ := parts_ok h
    cases h
    rw [List.length_append] at hstop
    exact .append (statement_jumps ha (by omega)) (block_jumps hb (by omega))

end

theorem terminator_jumps (f : Function) (start stop : Nat) : JumpsWithin start stop (terminator f) := by
  unfold terminator
  split
  · exact .nil
  · exact .plain rfl (.plain rfl .nil)
  · exact .plain rfl .nil

theorem function_jumps {table : Signatures} {env : Environment} {f : Function} {start stop : Nat}
    {code : List Instruction} (h : function table env start f = .ok code) (hstop : start + code.length ≤ stop) :
    JumpsWithin start stop code := by
  obtain ⟨body, hb, h⟩ := parts_ok (ok_of_inFunction h)
  cases h
  rw [List.length_append] at hstop
  exact .append (block_jumps hb (by omega)) (terminator_jumps f _ _)

theorem functions_jumps {table : Signatures} {env : Environment} {stop : Nat} : ∀ {fs : List Function} {start : Nat}
    {code : List Instruction} {entries : List Entry}, functions table env start fs = .ok (code, entries) →
    start + code.length ≤ stop → JumpsWithin start stop code
  | [], _, _, _, h, _ => by
    cases h
    exact .nil
  | f :: fs, start, _, _, h, hstop => by
    simp only [functions] at h
    obtain ⟨a, ha, h⟩ := parts_ok h
    obtain ⟨⟨b, entries'⟩, hb, h⟩ := parts_ok h
    cases h
    rw [List.length_append] at hstop
    exact .append (function_jumps ha (by omega)) (functions_jumps hb (by omega))

end Emit

/-- All jumps in the code lead forward. -/
def Image.Forward (image : Image) : Prop :=
  ∀ (pc : Nat) (instruction : Instruction), image.code[pc]? = some instruction →
    ∀ target ∈ instruction.target?, pc < target

theorem Program.forward_of_compile {p : Program} {env : Environment} {image : Image}
    (h : p.compile env = .ok image) : image.Forward := by
  obtain ⟨table, -, h⟩ := parts_ok h
  obtain ⟨⟨code, entries⟩, he, h⟩ := parts_ok h
  cases h
  intro pc instruction hi target htarget
  have hjump := Emit.functions_jumps he (Nat.le_refl _) pc instruction (by simpa using hi) target htarget
  omega

end Wordlang
