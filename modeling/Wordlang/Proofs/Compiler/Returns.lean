import Wordlang.Proofs.Compiler.Layout
import Wordlang.Proofs.Compiler.Variables

/-!
# How verified functions end

Verification decides from the tree alone how the evaluation of a function can end: a block that always
returns is never left behind its last statement, and every return has a value in a `func` and none in a
`proc`.

Main statement: `Eval.function_isSome`, a verified function has a result exactly if it is a `func`.
-/

namespace Wordlang

variable {η : Type}

/-- The ways in which statements of a function of the given kind may end; `returns` tells that they always
return. -/
def Completion.Conforms (kind : FunctionKind) (returns : Bool) : Completion → Prop
  | .through _ => returns = false
  | .returned value => value.isSome = true ↔ kind = .func

theorem Completion.Conforms.weaken {kind : FunctionKind} {b b' : Bool} {out : Completion}
    (h : out.Conforms kind b) (hb : b' = true → b = true) : out.Conforms kind b' := by
  cases out with
  | through a =>
    cases (h : b = false)
    exact Bool.eq_false_iff.2 fun hb' => absurd (hb hb') (by simp)
  | returned value => exact h

namespace Eval

variable [Host η] {c : Surroundings η} {kind : FunctionKind}

theorem write_fits {f : Function} {a a' : Activation} {name : String} {v : Word} {host host' : η}
    (ha : a.Fits f) (h : write c a name v host = .ok a' host') : a'.Fits f := by
  cases hget : a.get? name with
  | some w =>
    simp only [write, hget] at h
    cases h
    exact ha.set name v
  | none =>
    cases hg : c.env.resolveGlobal? name with
    | some id =>
      simp only [write, hget, hg] at h
      obtain ⟨_, mid, -, h⟩ := EvalM.bind_eq_ok h
      cases h
      exact ha
    | none =>
      simp only [write, hget, hg] at h
      cases h

/-- An expression statement ends behind itself and leaves the variables as they are. -/
theorem stmt_expr_ok {a : Activation} {e : Expr} {host host' : η} {out : Completion}
    (h : stmt c a (.expr e) host = .ok out host') : out = .through a := by
  cases e with
  | call name args =>
    simp only [stmt] at h
    obtain ⟨xs, mid, -, h⟩ := EvalM.bind_eq_ok h
    obtain ⟨r, mid', -, h⟩ := EvalM.bind_eq_ok h
    cases h
    rfl
  | _ =>
    simp only [stmt] at h
    obtain ⟨v, mid, -, h⟩ := EvalM.bind_eq_ok h
    cases h
    rfl

mutual

theorem stmt_conforms {returns : Bool} {a : Activation} {host host' : η} {out : Completion} : ∀ {s : Stmt},
    s.returns kind = .ok returns → stmt c a s host = .ok out host' → out.Conforms kind returns
  | .expr e, hv, h => by
    cases hv
    cases stmt_expr_ok h
    rfl
  | .set target e, hv, h => by
    cases hv
    simp only [stmt] at h
    obtain ⟨v, mid, -, h⟩ := EvalM.bind_eq_ok h
    obtain ⟨a', mid', -, h⟩ := EvalM.bind_eq_ok h
    cases h
    rfl
  | .ret none, hv, h => by
    simp only [Stmt.returns, Option.isSome_none] at hv
    split at hv
    · rename_i hk
      simp only [stmt] at h
      cases h
      simpa [Completion.Conforms] using hk
    · cases hv
  | .ret (some e), hv, h => by
    simp only [Stmt.returns, Option.isSome_some] at hv
    split at hv
    · rename_i hk
      simp only [stmt] at h
      obtain ⟨v, mid, -, h⟩ := EvalM.bind_eq_ok h
      cases h
      simpa [Completion.Conforms] using hk
    · cases hv
  | .ifThen test body, hv, h => by
    obtain ⟨b, hb, hv⟩ := parts_ok hv
    cases hv
    simp only [stmt] at h
    obtain ⟨v, mid, -, h⟩ := EvalM.bind_eq_ok h
    split at h
    · cases h
      rfl
    · exact (block_conforms hb h).weaken (by simp)
  | .ifElse test yes no, hv, h => by
    obtain ⟨b, hb, hv⟩ := parts_ok hv
    obtain ⟨b', hb', hv⟩ := parts_ok hv
    cases hv
    simp only [stmt] at h
    obtain ⟨v, mid, -, h⟩ := EvalM.bind_eq_ok h
    split at h
    · exact (block_conforms hb' h).weaken (by simp)
    · exact (block_conforms hb h).weaken (by simp +contextual)

theorem block_conforms {returns : Bool} {a : Activation} {host host' : η} {out : Completion} :
    ∀ {body : List Stmt}, Stmt.blockReturns kind body = .ok returns → block c a body host = .ok out host' →
      out.Conforms kind returns
  | [], hv, h => by
    cases hv
    simp only [block] at h
    cases h
    rfl
  | s :: rest, hv, h => by
    obtain ⟨b, hb, hv⟩ := parts_ok hv
    simp only [block] at h
    obtain ⟨first, mid, hs, h⟩ := EvalM.bind_eq_ok h
    have hfirst := stmt_conforms hb hs
    cases first with
    | through a' =>
      cases (hfirst : b = false)
      exact block_conforms hv h
    | returned v =>
      cases h
      exact hfirst

end

mutual

/-- Statements keep the names of the variables. -/
theorem stmt_fits {f : Function} {a a' : Activation} {host host' : η} (ha : a.Fits f) : ∀ {s : Stmt},
    stmt c a s host = .ok (.through a') host' → a'.Fits f
  | .expr e, h => by
    cases stmt_expr_ok h
    exact ha
  | .set target e, h => by
    simp only [stmt] at h
    obtain ⟨v, mid, -, h⟩ := EvalM.bind_eq_ok h
    obtain ⟨a'', mid', hw, h⟩ := EvalM.bind_eq_ok h
    cases h
    exact write_fits ha hw
  | .ret none, h => by
    simp only [stmt] at h
    cases h
  | .ret (some e), h => by
    simp only [stmt] at h
    obtain ⟨v, mid, -, h⟩ := EvalM.bind_eq_ok h
    cases h
  | .ifThen test body, h => by
    simp only [stmt] at h
    obtain ⟨v, mid, -, h⟩ := EvalM.bind_eq_ok h
    split at h
    · cases h
      exact ha
    · exact block_fits ha h
  | .ifElse test yes no, h => by
    simp only [stmt] at h
    obtain ⟨v, mid, -, h⟩ := EvalM.bind_eq_ok h
    split at h
    · exact block_fits ha h
    · exact block_fits ha h

theorem block_fits {f : Function} {a a' : Activation} {host host' : η} (ha : a.Fits f) :
    ∀ {body : List Stmt}, block c a body host = .ok (.through a') host' → a'.Fits f
  | [], h => by
    simp only [block] at h
    cases h
    exact ha
  | s :: rest, h => by
    simp only [block] at h
    obtain ⟨first, mid, hs, h⟩ := EvalM.bind_eq_ok h
    cases first with
    | through a'' => exact block_fits (stmt_fits ha hs) h
    | returned v => cases h

end

/-- What verification finds out about the body of a function. -/
theorem returns_of_verify {f : Function} (h : f.verify = .ok ()) :
    ∃ returns, Stmt.blockReturns f.kind f.body = .ok returns ∧ (f.kind = .func → returns = true) := by
  have hv := ok_of_inFunction h
  split at hv
  · cases hv
  · obtain ⟨returns, hb, hv⟩ := parts_ok hv
    refine ⟨returns, hb, fun hk => ?_⟩
    split at hv
    · cases hv
    · rename_i hreturns
      simpa [hk] using hreturns

theorem blockReturns_of_last {b : Bool} {value : Option Expr} : ∀ {body : List Stmt},
    Stmt.blockReturns kind body = .ok b → body.getLast? = some (.ret value) → b = true
  | [], _, hl => by simp at hl
  | [s], h, hl => by
    cases (by simpa using hl : s = .ret value)
    obtain ⟨b', hb, h⟩ := parts_ok h
    have hb' : b' = true := by
      simp only [Stmt.returns] at hb
      split at hb
      · cases hb; rfl
      · cases hb
    subst hb'
    cases h
    rfl
  | s :: s' :: rest, h, hl => by
    obtain ⟨b', hb, h⟩ := parts_ok h
    cases b' with
    | true => cases h
    | false => exact blockReturns_of_last h (by simpa using hl)

/-- A verified function has a result exactly if it is a `func`. -/
theorem function_isSome {p : Program} {env : Environment} {limit room : Nat} {f : Function} {args : List Word}
    {host host' : η} {result : Option Word} (hf : f.verify = .ok ())
    (h : function p env limit room f args host = .ok result host') : result.isSome = true ↔ f.kind = .func := by
  obtain ⟨returns, hb, hk⟩ := returns_of_verify hf
  unfold function at h
  obtain ⟨out, mid, ho, h⟩ := EvalM.bind_eq_ok h
  have hc := block_conforms hb ho
  cases out with
  | through a =>
    cases h
    cases (hc : returns = false)
    simpa using hk
  | returned value =>
    cases h
    exact hc

/-- Only a `proc` can be left behind its last statement, and its code has a return there. -/
theorem terminator_of_through {f : Function} {a a' : Activation} {host host' : η} (hf : f.verify = .ok ())
    (h : block c a f.body host = .ok (.through a') host') : Emit.terminator f = [.ret] := by
  obtain ⟨returns, hb, hk⟩ := returns_of_verify hf
  cases (block_conforms hb h : returns = false)
  have hkind : f.kind = .proc := by
    cases hkind : f.kind with
    | func => exact absurd (hk hkind) (by simp)
    | proc => rfl
  have hlast : ∀ value, f.body.getLast? ≠ some (.ret value) := by
    intro value hl
    exact absurd (blockReturns_of_last hb hl) (by simp)
  simp only [Emit.terminator, hkind]

end Eval

end Wordlang
