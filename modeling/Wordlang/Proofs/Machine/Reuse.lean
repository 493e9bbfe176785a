import Wordlang.Proofs.Machine.CallDepth
import Wordlang.Proofs.Machine.Frames

/-!
# A machine can be used again after anything

Only a fault clears the stack and the frames of a machine by force. A call that succeeds leaves them empty as well,
whatever operands its code has left behind: the frame that ends it has no caller, so it is the first one, and that one
lies at the bottom of the stack. Hence nothing of a call is there for the next one but the host, and in a row of calls
each is the same as on a machine that has not been used.

Main statement: `Machine.served_as_fresh`.
-/

namespace Wordlang

variable {η : Type}

/-- The state of a machine that has not been used. -/
def State.fresh (host : η) : State η := ⟨host, #[], #[]⟩

/-! ## The end of a call -/

theorem ExecM.leave_last {lower : Array Frame} {frame : Frame} {s s' : State η} {pc : Nat} {result : Option Word}
    (hframes : s.frames = lower.push frame) (h : leave pc result s = .ok none s') :
    frame.returnAddress = none ∧ s' = { s with stack := s.stack.shrink frame.base, frames := lower } := by
  simp only [leave, hframes, Array.back?_push, Array.pop_push] at h
  cases haddress : frame.returnAddress with
  | none =>
    simp only [haddress] at h
    cases h
    exact ⟨rfl, rfl⟩
  | some address =>
    simp only [haddress] at h
    cases result <;> cases h

namespace Machine

variable {m : Machine} {pc : Nat} {s s' : State η} {lower : Array Frame} {frame : Frame} {r : Option Word}

theorem returnFrom_done {result : Option Word} (hframes : s.frames = lower.push frame)
    (h : returnFrom pc result s = .ok (.done r) s') :
    frame.returnAddress = none ∧ s' = { s with stack := s.stack.shrink frame.base, frames := lower } := by
  obtain ⟨next, mid, hleave, h⟩ := EvalM.bind_eq_ok h
  cases next with
  | some address => cases h
  | none =>
    cases h
    exact ExecM.leave_last hframes hleave

variable [Host η]

/-- The last instruction of a run that succeeds returns from a frame that has no caller. -/
theorem done_of_exec {i : Instruction} (hframes : s.frames = lower.push frame) (hfloor : frame.floor ≤ s.stack.size)
    (h : m.exec pc i s = .ok (.done r) s') :
    frame.returnAddress = none ∧ s' = { s with stack := s.stack.shrink frame.base, frames := lower } := by
  have hs : s.Inside lower frame s.stack := ⟨⟨frame.locals, hframes⟩, fun _ _ => rfl, hfloor⟩
  cases i with
  | ret => exact returnFrom_done hframes h
  | retValue =>
    obtain ⟨v, s₁, hoperand, h⟩ := EvalM.bind_eq_ok h
    obtain ⟨hlt, rfl⟩ := hs.of_operand hoperand
    obtain ⟨haddress, rfl⟩ := returnFrom_done (s := { s with stack := s.stack.pop }) hframes h
    have hbase : frame.base < s.stack.size := Nat.lt_of_le_of_lt frame.base_le_floor hlt
    exact ⟨haddress, by simp only [shrink_pop hbase]⟩
  | jump target => cases h
  | jumpIfZero target =>
    obtain ⟨v, s₁, -, h⟩ := EvalM.bind_eq_ok h
    split at h <;> cases h
  | jumpIfNonZero target =>
    obtain ⟨v, s₁, -, h⟩ := EvalM.bind_eq_ok h
    split at h <;> cases h
  | store slot =>
    obtain ⟨v, s₁, -, h⟩ := EvalM.bind_eq_ok h
    obtain ⟨u, s₂, -, h⟩ := EvalM.bind_eq_ok h
    cases h
  | arith op =>
    obtain ⟨right, s₁, -, h⟩ := EvalM.bind_eq_ok h
    obtain ⟨left, s₂, -, h⟩ := EvalM.bind_eq_ok h
    obtain ⟨v, s₃, -, h⟩ := EvalM.bind_eq_ok h
    cases h
  | _ =>
    obtain ⟨v, s₁, -, h⟩ := EvalM.bind_eq_ok h
    cases h

/-- The frame without a caller is the only one, and there is nothing below it on the stack. -/
theorem fresh_of_halt {limit : Nat} (hs : s.WellFramed limit) (h : m.step pc s = .halt (.ok r) s') :
    s' = .fresh s'.host := by
  obtain ⟨lower, frame, hframes, hfloor⟩ := hs.exists_top
  have hdone : frame.returnAddress = none ∧
      s' = { s with stack := s.stack.shrink frame.base, frames := lower } := by
    unfold step at h
    split at h
    · cases h
    · split at h
      · cases h
      · rename_i hexec
        cases h
        exact done_of_exec hframes hfloor hexec
      · cases h
  obtain ⟨haddress, rfl⟩ := hdone
  have hlower : lower.size = 0 := by
    refine Decidable.byContradiction fun hne => ?_
    have htop : s.frames[lower.size - 1 + 1]? = some frame := by
      rw [Nat.sub_add_cancel (Nat.pos_of_ne_zero hne), hframes, Array.getElem?_push_size]
    have hcaller := hs.callers _ frame htop
    rw [haddress] at hcaller
    cases hcaller
  have hbase : frame.base = 0 := by
    obtain ⟨first, hfirst, hzero, -⟩ := hs.bottom
    rw [hframes, Array.getElem?_push, if_pos hlower.symm] at hfirst
    cases hfirst
    exact hzero
  have hstack : s.stack.shrink frame.base = #[] := Array.eq_empty_of_size_eq_zero (by simp [hbase])
  simp only [State.fresh, hstack, Array.eq_empty_of_size_eq_zero hlower]

/-- From well-framed states on, a run that succeeds ends with an empty stack and without frames. -/
theorem fresh_of_run {n : Nat} (hs : s.WellFramed m.maxCallDepth) (h : m.run n pc s = some (.ok r, s')) :
    s' = .fresh s'.host := by
  induction n generalizing pc s with
  | zero => cases h
  | succ n ih =>
    simp only [run] at h
    cases hstep : m.step pc s with
    | next pc₁ s₁ =>
      simp only [hstep] at h
      exact ih (wellFramed_of_goes (x := (pc, s)) (y := (pc₁, s₁)) hs hstep) h
    | halt result s₁ =>
      simp only [hstep] at h
      cases h
      exact fresh_of_halt hs hstep

theorem fresh_of_call {n : Nat} {name : String} {args : List Word} {host : η} {result : Except Fault (Option Word)}
    (h : m.call n name args (.fresh host) = some (result, s')) : s' = .fresh s'.host := by
  cases hfind : m.image.find? name with
  | none =>
    simp only [call, hfind] at h
    cases h
    rfl
  | some found =>
    obtain ⟨id, entry⟩ := found
    by_cases hargs : args.length = entry.params
    · have hstarts : m.Starts name args (.fresh host) _ := ⟨id, entry, hfind, hargs, rfl⟩
      rw [call_eq_map_run hfind hargs, Option.map_eq_some_iff] at h
      obtain ⟨⟨fault | value, s₁⟩, hrun, hfinish⟩ := h
      · cases hfinish
        rfl
      · cases hfinish
        exact fresh_of_run (wellFramed_of_starts hstarts) hrun
    · simp only [call, hfind, if_pos hargs] at h
      cases h
      rfl

/-! ## The requests of a call -/

theorem call_view {θ : Type} [Host θ] {view : η → θ} (hview : Host.View view) (m : Machine) (n : Nat) (name : String)
    (args : List Word) (s : State η) :
    m.call n name args (s.view view) = (m.call n name args s).map fun r => (r.1, r.2.view view) := by
  cases hfind : m.image.find? name with
  | none => simp only [call, hfind, Option.map_some]
  | some found =>
    obtain ⟨id, entry⟩ := found
    by_cases hargs : args.length = entry.params
    · rw [call_eq_map_run hfind hargs, call_eq_map_run hfind hargs]
      have hrun := run_view hview m n entry.address ⟨s.host, args.toArray, #[.ofEntry entry none 0]⟩
      refine (congrArg (Option.map finish) hrun).trans ?_
      rw [Option.map_map, Option.map_map]
      refine congrArg (Option.map · _) (funext ?_)
      rintro ⟨fault | value, s₁⟩ <;> rfl
    · simp only [call, hfind, if_pos hargs, Option.map_some]

/-- What a call adds to a record of requests is what it notes in an empty one. -/
theorem fresh_ends {name : String} {args : List Word} {host : Recorded η} {result : Except Fault (Option Word)}
    {s' : State (Recorded η)} (h : m.Ends name args (.fresh host) (result, s')) :
    ∃ log, s'.host.calls = host.calls ++ log ∧
      m.Ends name args (.fresh (Recorded.mk host.host [])) (result, .fresh (Recorded.mk s'.host.host log)) := by
  obtain ⟨n, hcall⟩ := ends_iff.1 h
  have hbehind : (.fresh host : State (Recorded η)) =
      State.view (.behind host.calls) (.fresh (Recorded.mk host.host [])) := by
    simp [State.view, State.fresh, Recorded.behind]
  rw [hbehind, call_view (Recorded.view_behind _), Option.map_eq_some_iff] at hcall
  obtain ⟨⟨result', s₁⟩, hcall, heq⟩ := hcall
  cases heq
  refine ⟨s₁.host.calls, rfl, ends_of_call (n := n) (hcall.trans ?_)⟩
  rw [fresh_of_call hcall]
  rfl

/-! ## Calls in a row -/

/-- A call that has ended, with the states of the machine before and after it. -/
structure Invocation (η : Type) where
  name : String
  args : List Word
  before : State η
  result : Except Fault (Option Word)
  after : State η

/-- One machine serves calls in a row, each in the state that the one before it has left. -/
inductive Served (m : Machine) : State η → List (Invocation η) → Prop
  | nil {s : State η} : Served m s []
  | cons {name : String} {args : List Word} {s s' : State η} {result : Except Fault (Option Word)}
    {calls : List (Invocation η)} : m.Ends name args s (result, s') → Served m s' calls →
    Served m s (⟨name, args, s, result, s'⟩ :: calls)

theorem fresh_of_served {host : η} {calls : List (Invocation η)} (h : m.Served (.fresh host) calls) :
    ∀ c ∈ calls, m.Ends c.name c.args (.fresh c.before.host) (c.result, c.after) ∧ c.after = .fresh c.after.host := by
  generalize hs : State.fresh host = s at h
  induction h generalizing host with
  | nil =>
    intro c hc
    cases hc
  | cons hends _ ih =>
    subst hs
    obtain ⟨n, hcall⟩ := ends_iff.1 hends
    have hafter := fresh_of_call hcall
    intro c hc
    rcases List.mem_cons.1 hc with rfl | hc
    · exact ⟨hends, hafter⟩
    · exact ih hafter.symm c hc

/-- After each of the calls in a row, whether it has succeeded or failed, the stack and the frames are empty, and each
call is that of a new machine with the same host: with the same result, and with the same changes to the host after the
same requests. -/
theorem served_as_fresh (m : Machine) {start : Recorded η} {calls : List (Invocation (Recorded η))}
    (h : m.Served (.fresh start) calls) :
    ∀ c ∈ calls, c.after.stack = #[] ∧ c.after.frames = #[] ∧
      ∃ log, c.after.host.calls = c.before.host.calls ++ log ∧
        m.Ends c.name c.args (.fresh (Recorded.mk c.before.host.host []))
          (c.result, .fresh (Recorded.mk c.after.host.host log)) := by
  intro c hc
  obtain ⟨hends, hafter⟩ := fresh_of_served h c hc
  exact ⟨by rw [hafter]; rfl, by rw [hafter]; rfl, fresh_ends hends⟩

/-- The first function returns above an operand that nobody takes. The second notes a word and fails in a function that
it calls, with operands of both on the stack. -/
def careless : Machine :=
  ⟨⟨#[.push 1, .push 7, .callExternal 0 1 .proc, .push 5, .retValue,
      .push 9, .call 2 0, .ret,
      .push 8, .callExternal 0 1 .proc, .pop],
    #[⟨"Main", 0, 0, .func, 0⟩, ⟨"Outer", 0, 0, .proc, 5⟩, ⟨"Inner", 0, 0, .proc, 8⟩]⟩, 2⟩

def carelessCalls : List (Invocation (Recorded (Bindings (List Word)))) :=
  [⟨"Main", [], noted [], .ok (some 5), noted [7]⟩,
    ⟨"Outer", [], noted [7], .error (.stackUnderflow 10), noted [7, 8]⟩,
    ⟨"main", [], noted [7, 8], .error (.unknownFunction "main"), noted [7, 8]⟩,
    ⟨"Main", [3], noted [7, 8], .error (.wrongArgumentCount "Main" 0 1), noted [7, 8]⟩,
    ⟨"Main", [], noted [7, 8], .ok (some 5), noted [7, 8, 7]⟩]

/-- The last of these calls notes what it would note alone. -/
theorem careless_served_as_fresh :
    careless.Served (.fresh (noted []).host) carelessCalls ∧
    ∃ log, (noted [7, 8, 7]).host.calls = (noted [7, 8]).host.calls ++ log ∧
      careless.Ends "Main" [] (.fresh (Recorded.mk (noted [7, 8]).host.host []))
        (.ok (some 5), .fresh (Recorded.mk (noted [7, 8, 7]).host.host log)) := by
  have hmain : careless.image.find? "Main" = some (0, ⟨"Main", 0, 0, .func, 0⟩) := by decide +kernel
  have houter : careless.image.find? "Outer" = some (1, ⟨"Outer", 0, 0, .proc, 5⟩) := by decide +kernel
  have hnone : careless.image.find? "main" = none := by decide +kernel
  have hfirst : careless.Ends "Main" [] (noted []) (.ok (some 5), noted [7]) :=
    ends_of_call (n := 5) ((call_eq_map_run hmain rfl 5 (noted [])).trans rfl)
  have hfault : careless.Ends "Outer" [] (noted [7]) (.error (.stackUnderflow 10), noted [7, 8]) :=
    ends_of_call (n := 6) ((call_eq_map_run houter rfl 6 (noted [7])).trans rfl)
  have hunknown : careless.Ends "main" [] (noted [7, 8]) (.error (.unknownFunction "main"), noted [7, 8]) :=
    ends_of_call (n := 0) (by simp only [call, hnone])
  have hcount : careless.Ends "Main" [3] (noted [7, 8]) (.error (.wrongArgumentCount "Main" 0 1), noted [7, 8]) :=
    ends_of_call (n := 0) (by simp [call, hmain])
  have hagain : careless.Ends "Main" [] (noted [7, 8]) (.ok (some 5), noted [7, 8, 7]) :=
    ends_of_call (n := 5) ((call_eq_map_run hmain rfl 5 (noted [7, 8])).trans rfl)
  have hserved : careless.Served (noted []) carelessCalls :=
    .cons hfirst (.cons hfault (.cons hunknown (.cons hcount (.cons hagain .nil))))
  have hlast : ⟨"Main", [], noted [7, 8], .ok (some 5), noted [7, 8, 7]⟩ ∈ carelessCalls := by simp [carelessCalls]
  exact ⟨hserved, (served_as_fresh careless hserved _ hlast).2.2⟩

end Machine

end Wordlang
