import Wordlang.Machine.Run
import Wordlang.Semantics.Eval

/-!
# Runs that follow an evaluation

A `Landing` is a point of a run seen without the host. `Simulates m x start stop` says that the run from
`start` does what the evaluation `x` does: it comes to `stop a` where `x` has the value `a`, it ends with
the fault of `x` where `x` fails, and either way the host is the one that `x` leaves. Evaluations are put
together by `bind`, and so are the runs that follow them (`Simulates.bind`).
-/

namespace Wordlang

/-- A point of a run without its host. The topmost operand and the innermost frame stand last. -/
structure Landing where
  next : Next
  stack : List Word
  frames : List Frame

namespace Landing

variable {η : Type}

def state (l : Landing) (host : η) : State η := ⟨host, l.stack.toArray, l.frames.toArray⟩

/-- What is left of the run, within a number of steps. -/
def resume [Host η] (l : Landing) (m : Machine) (host : η) (steps : Nat) :
    Option (Except Fault (Option Word) × State η) :=
  match l.next with
  | .goto pc => m.run steps pc (l.state host)
  | .done result => some (.ok result, l.state host)

end Landing

/-- What has succeeded has succeeded in each of its parts. -/
theorem EvalM.bind_eq_ok {η α β : Type} {x : EvalM η α} {f : α → EvalM η β} {host host' : η} {b : β}
    (h : (x >>= f) host = .ok b host') : ∃ a mid, x host = .ok a mid ∧ f a mid = .ok b host' := by
  have e : (x >>= f) host = EStateM.bind x f host := rfl
  rw [e, EStateM.bind] at h
  cases hx : x host with
  | ok a mid => exact ⟨a, mid, rfl, by simpa only [hx] using h⟩
  | error f mid => simp only [hx] at h; cases h

variable {η α β : Type} [Host η]

/-- The run from `start` does what `x` does. Faults agree up to the address. -/
def Simulates (m : Machine) (x : EvalM η α) (start : Landing) (stop : α → Landing) : Prop :=
  ∀ host, match x host with
    | .ok a host' => ∃ n, ∀ k, start.resume m host (k + n) = (stop a).resume m host' k
    | .error f host' => ∃ n f' s, f'.unplaced = f.unplaced ∧ s.host = host' ∧
        ∀ k, start.resume m host (k + n) = some (.error f', s)

namespace Simulates

variable {m : Machine} {start : Landing} {x : EvalM η α} {stop : α → Landing}

/-- One evaluation after the other, one run after the other. -/
theorem bind {f : α → EvalM η β} {mid : α → Landing} {stop : β → Landing} (hx : Simulates m x start mid)
    (hf : ∀ a host host', x host = .ok a host' → Simulates m (f a) (mid a) stop) :
    Simulates m (x >>= f) start stop := by
  intro host
  have h := hx host
  have e : (x >>= f) host = EStateM.bind x f host := rfl
  rw [e]
  cases hv : x host with
  | ok a host' =>
    simp only [hv] at h
    obtain ⟨n, h⟩ := h
    have h' := hf a host host' hv host'
    simp only [EStateM.bind, hv]
    split
    · rename_i b host'' hb
      simp only [hb] at h'
      obtain ⟨n', h'⟩ := h'
      exact ⟨n' + n, fun k => by rw [← Nat.add_assoc, h, h']⟩
    · rename_i f host'' hb
      simp only [hb] at h'
      obtain ⟨n', f', s, hf', hs, h'⟩ := h'
      exact ⟨n' + n, f', s, hf', hs, fun k => by rw [← Nat.add_assoc, h, h']⟩
  | error f host' =>
    simp only [hv] at h
    simpa only [EStateM.bind, hv] using h

/-- An evaluation that does nothing needs no steps. -/
theorem of_eq {a : α} (h : stop a = start) : Simulates m (pure a : EvalM η α) start stop :=
  fun _ => ⟨0, fun _ => by rw [h]; rfl⟩

/-- Steps in front of a run that follows an evaluation. -/
theorem after {mid : Landing} (h : Simulates m (pure () : EvalM η Unit) start fun _ => mid)
    (hx : Simulates m x mid stop) : Simulates m x start stop := by
  have e : (pure () >>= fun _ => x) = x := rfl
  rw [← e]
  exact h.bind fun _ _ _ _ => hx

/-- Steps behind a run that follows an evaluation. -/
theorem before {mid : α → Landing} (hx : Simulates m x start mid)
    (h : ∀ a, Simulates m (pure a : EvalM η α) (mid a) stop) : Simulates m x start stop := by
  rw [← bind_pure x]
  exact hx.bind fun a _ _ _ => h a

/-- An instruction that does what `x` does. -/
theorem of_exec {pc : Nat} {i : Instruction} {stack : List Word} {frames : List Frame}
    (hi : m.image.code[pc]? = some i)
    (h : ∀ host, match x host with
      | .ok a host' => m.exec pc i (Landing.state ⟨.goto pc, stack, frames⟩ host) =
          .ok (stop a).next ((stop a).state host')
      | .error f host' => ∃ f' s, f'.unplaced = f.unplaced ∧ s.host = host' ∧
          m.exec pc i (Landing.state ⟨.goto pc, stack, frames⟩ host) = .error f' s) :
    Simulates m x ⟨.goto pc, stack, frames⟩ stop := by
  intro host
  have h := h host
  split
  · rename_i a host' ha
    simp only [ha] at h
    refine ⟨1, fun k => ?_⟩
    simp only [Landing.resume, Machine.run, Machine.step, hi, h]
    cases (stop a).next <;> rfl
  · rename_i f host' hf
    simp only [hf] at h
    obtain ⟨f', s, hf', hs, he⟩ := h
    refine ⟨1, f', s, hf', hs, fun k => ?_⟩
    simp only [Landing.resume, Machine.run, Machine.step, hi, he]

end Simulates

end Wordlang
