import Wordlang.Proofs.Compiler.Refinement

/-!
# Runs do not see more of a host than its answers

A machine knows its host only by the answers to its requests. If two hosts answer alike and stay alike, then runs with
the one are runs with the other. So it makes no difference to a run what a record of requests holds at its start.

Main statement: `Machine.run_view`.
-/

namespace Wordlang

/-- What is seen of a host through `view` is a host itself, which answers as the whole does. -/
structure Host.View {η θ : Type} [Host η] [Host θ] (view : η → θ) : Prop where
  callExternal : ∀ host id args, Host.callExternal (view host) id args =
    ((Host.callExternal host id args).1, view (Host.callExternal host id args).2)
  loadGlobal : ∀ host id, Host.loadGlobal (view host) id =
    ((Host.loadGlobal host id).1, view (Host.loadGlobal host id).2)
  storeGlobal : ∀ host id value, Host.storeGlobal (view host) id value =
    ((Host.storeGlobal host id value).1, view (Host.storeGlobal host id value).2)

variable {η θ α β : Type}

def State.view (view : η → θ) (s : State η) : State θ := ⟨view s.host, s.stack, s.frames⟩

namespace ExecM

/-- The end of a part of an instruction, as seen through `view`. -/
def seen (view : η → θ) : EStateM.Result Fault (State η) α → EStateM.Result Fault (State θ) α
  | .ok a s => .ok a (s.view view)
  | .error fault s => .error fault (s.view view)

/-- What `x` does to a host, `y` does to what is seen of it. -/
def Seen (view : η → θ) (x : ExecM η α) (y : ExecM θ α) : Prop := ∀ s, y (s.view view) = seen view (x s)

namespace Seen

variable {view : η → θ} {x : ExecM η α} {y : ExecM θ α}

theorem bind {f : α → ExecM η β} {g : α → ExecM θ β} (h : Seen view x y) (hf : ∀ a, Seen view (f a) (g a)) :
    Seen view (x >>= f) (y >>= g) := by
  intro s
  have hs := h s
  have hx : (x >>= f) s = EStateM.bind x f s := rfl
  have hy : (y >>= g) (s.view view) = EStateM.bind y g (s.view view) := rfl
  rw [hx, hy, EStateM.bind, EStateM.bind, hs]
  cases x s with
  | ok a s' => exact hf a s'
  | error fault s' => rfl

theorem pure (a : α) : Seen view (Pure.pure a) (Pure.pure a) := fun _ => rfl

theorem throw (fault : Fault) : Seen view (MonadExcept.throw fault : ExecM η α) (MonadExcept.throw fault) :=
  fun _ => rfl

theorem push (value : Word) : Seen view (push value) (push value) := fun _ => rfl

theorem enter (frame : Frame) : Seen view (enter frame) (enter frame) := fun _ => rfl

theorem operandsFrom (base : Nat) : Seen view (operandsFrom base) (operandsFrom base) := fun _ => rfl

theorem operand (pc : Nat) : Seen view (operand pc) (operand pc) := by
  intro s
  simp only [ExecM.operand, State.view]
  grind [seen, State.view]

theorem operandsBase (pc count : Nat) : Seen view (operandsBase pc count) (operandsBase pc count) := by
  intro s
  simp only [ExecM.operandsBase, State.view]
  grind [seen, State.view]

theorem leave (pc : Nat) (result : Option Word) : Seen view (leave pc result) (leave pc result) := by
  intro s
  simp only [ExecM.leave, State.view]
  grind [seen, State.view]

theorem ask (request : η → Except Fault α × η) (request' : θ → Except Fault α × θ)
    (h : ∀ host, request' (view host) = ((request host).1, view (request host).2)) :
    Seen view (ask request) (ask request') := by
  intro s
  have hs := h s.host
  simp only [ExecM.ask, State.view, hs]
  grind [seen, State.view]

theorem calculate (pc : Nat) (op : Arith) (left right : Word) :
    Seen view (Machine.calculate pc op left right) (Machine.calculate pc op left right) := by
  unfold Machine.calculate
  split
  · exact pure _
  · exact throw _
  · exact throw _

/-- The code that reads the state looks only at its stack and its frames. -/
theorem get {f : State η → ExecM η β} {g : State θ → ExecM θ β} (h : ∀ s, Seen view (f s) (g (s.view view))) :
    Seen view (MonadState.get >>= f) (MonadState.get >>= g) := fun s => h s s

theorem enterFunction (m : Machine) (pc id argc : Nat) :
    Seen view (m.enterFunction pc id argc) (m.enterFunction pc id argc) := by
  refine get fun s => ?_
  have hframes : (s.view view).frames = s.frames := rfl
  rw [hframes]
  split
  · exact throw _
  · split
    · exact throw _
    · split
      · exact throw _
      · exact (operandsBase pc argc).bind fun base => (enter _).bind fun _ => pure _

theorem returnFrom (pc : Nat) (result : Option Word) :
    Seen view (Machine.returnFrom pc result) (Machine.returnFrom pc result) := by
  refine (leave pc result).bind fun address => ?_
  split <;> exact pure _

variable [Host η] [Host θ] (hview : Host.View view)
include hview

theorem load (pc : Nat) (slot : Slot) : Seen view (Machine.load pc slot) (Machine.load pc slot) := by
  cases slot with
  | global id => exact ask (Host.loadGlobal · id) (Host.loadGlobal · id) fun host => hview.loadGlobal host id
  | _ =>
    intro s
    simp only [Machine.load, loadArg, loadLocal, State.view]
    grind [seen, State.view]

theorem store (pc : Nat) (value : Word) (slot : Slot) :
    Seen view (Machine.store pc value slot) (Machine.store pc value slot) := by
  cases slot with
  | global id =>
    exact ask (Host.storeGlobal · id value) (Host.storeGlobal · id value) fun host => hview.storeGlobal host id value
  | _ =>
    intro s
    simp only [Machine.store, storeArg, storeLocal, State.view]
    grind [seen, State.view]

theorem callHost (pc id argc : Nat) (kind : FunctionKind) :
    Seen view (Machine.callHost pc id argc kind) (Machine.callHost pc id argc kind) := by
  refine (operandsBase pc argc).bind fun base => (operandsFrom base).bind fun args => ?_
  have hcall := ask (Host.callExternal · id args) (Host.callExternal · id args)
    fun host => hview.callExternal host id args
  refine hcall.bind fun value => ?_
  cases kind with
  | func => exact push value
  | proc => exact pure ()

theorem exec (m : Machine) (pc : Nat) (i : Instruction) : Seen view (m.exec pc i) (m.exec pc i) := by
  cases i with
  | push value => exact (push value).bind fun _ => pure _
  | pop => exact (operand pc).bind fun _ => pure _
  | load slot => exact (load hview pc slot).bind fun value => (push value).bind fun _ => pure _
  | store slot => exact (operand pc).bind fun value => (store hview pc value slot).bind fun _ => pure _
  | neg => exact (operand pc).bind fun value => (push (-value)).bind fun _ => pure _
  | arith op =>
    refine (operand pc).bind fun right => (operand pc).bind fun left => ?_
    exact (calculate pc op left right).bind fun value => (push value).bind fun _ => pure _
  | jump target => exact pure _
  | jumpIfZero target =>
    refine (operand pc).bind fun value => ?_
    split <;> exact pure _
  | jumpIfNonZero target =>
    refine (operand pc).bind fun value => ?_
    split <;> exact pure _
  | call id argc => exact (enterFunction m pc id argc).bind fun _ => pure _
  | callExternal id argc kind => exact (callHost hview pc id argc kind).bind fun _ => pure _
  | ret => exact returnFrom pc none
  | retValue => exact (operand pc).bind fun value => returnFrom pc (some value)

end Seen

end ExecM

/-! ## Runs -/

def Step.view (view : η → θ) : Step η → Step θ
  | .next pc s => .next pc (s.view view)
  | .halt result s => .halt result (s.view view)

namespace Machine

variable [Host η] [Host θ] {view : η → θ}

theorem step_view (hview : Host.View view) (m : Machine) (pc : Nat) (s : State η) :
    m.step pc (s.view view) = (m.step pc s).view view := by
  unfold step
  cases m.image.code[pc]? with
  | none => rfl
  | some i =>
    simp only [ExecM.Seen.exec hview m pc i s]
    cases m.exec pc i s with
    | ok next s' => cases next <;> rfl
    | error fault s' => rfl

theorem run_view (hview : Host.View view) (m : Machine) (n pc : Nat) (s : State η) :
    m.run n pc (s.view view) = (m.run n pc s).map fun r => (r.1, r.2.view view) := by
  induction n generalizing pc s with
  | zero => rfl
  | succ n ih =>
    simp only [run, step_view hview]
    cases m.step pc s with
    | next pc' s' => exact ih pc' s'
    | halt result s' => rfl

end Machine

/-! ## Records -/

/-- A record with earlier requests in front. -/
def Recorded.behind (log : List (Nat × List Word)) (r : Recorded η) : Recorded η := { r with calls := log ++ r.calls }

theorem Recorded.view_behind [Host η] (log : List (Nat × List Word)) :
    Host.View (Recorded.behind log : Recorded η → Recorded η) where
  callExternal r id args := by
    simp [Host.callExternal, behind]
  loadGlobal r id := rfl
  storeGlobal r id value := rfl

end Wordlang
