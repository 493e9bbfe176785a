import Wordlang.Proofs.Compiler.Landing

/-!
# What a step can do

A step keeps to the innermost frame. It goes on inside the frame, or enters a new frame on top of it whose arguments
are the topmost operands, or leaves it and puts a result where its arguments were. The frames below, and the stack
below the base of the frame, are out of its reach.

Main statement: `Machine.move_of_step`, from which what is true of whole runs is derived.
-/

namespace Wordlang

/-- Where an instruction may jump to. -/
def Instruction.target? : Instruction → Option Nat
  | .jump target => some target
  | .jumpIfZero target => some target
  | .jumpIfNonZero target => some target
  | _ => none

variable {η : Type}

/-! ## Inside a frame -/

/-- The innermost frame is `frame`, but for its locals, and lies on the frames `lower`. Its arguments are on the
stack, and the cells below them are those of `below`. -/
structure State.Inside (lower : Array Frame) (frame : Frame) (below : Array Word) (s : State η) : Prop where
  frames : ∃ locals, s.frames = lower.push { frame with locals }
  cells : ∀ i < frame.base, s.stack[i]? = below[i]?
  floor : frame.floor ≤ s.stack.size

theorem Frame.base_le_floor (frame : Frame) : frame.base ≤ frame.floor := Nat.le_add_right _ _

/-- What is below a height of the stack is still there when the stack shrinks to it. -/
theorem getElem?_shrink {xs : Array Word} {n i : Nat} (hi : i < n) : (xs.shrink n)[i]? = xs[i]? := by
  rw [Array.shrink_eq_take, Array.take, Array.getElem?_extract]
  by_cases h : i < xs.size
  · rw [if_pos (by omega), Nat.zero_add]
  · rw [if_neg (by omega), Array.getElem?_eq_none (Nat.le_of_not_lt h)]

/-- A result that is taken from the top of the stack does not matter for what is left below the frame. -/
theorem shrink_pop {xs : Array Word} {n : Nat} (h : n < xs.size) : xs.pop.shrink n = xs.shrink n := by
  refine Array.ext_getElem? fun i => ?_
  by_cases hi : i < n
  · rw [getElem?_shrink hi, getElem?_shrink hi, Array.getElem?_pop, if_pos (by omega)]
  · rw [Array.getElem?_eq_none (by simp; omega), Array.getElem?_eq_none (by simp; omega)]

namespace State.Inside

open ExecM

variable {lower : Array Frame} {frame : Frame} {below : Array Word} {s s' : State η} {pc : Nat} {v : Word}

theorem back? (hs : s.Inside lower frame below) :
    ∃ locals, s.frames.back? = some { frame with locals } ∧ s.frames.pop = lower := by
  obtain ⟨locals, h⟩ := hs.frames
  exact ⟨locals, by simp [h]⟩

theorem push {u : Unit} (hs : s.Inside lower frame below) (h : push v s = .ok u s') : s'.Inside lower frame below := by
  cases h
  refine ⟨hs.frames, fun i hi => ?_, ?_⟩
  · have hlt : i < s.stack.size := Nat.lt_of_lt_of_le hi (Nat.le_trans frame.base_le_floor hs.floor)
    rw [← hs.cells i hi, Array.getElem?_push, if_neg (Nat.ne_of_lt hlt)]
  · have := hs.floor
    simp only [Array.size_push]
    omega

/-- An operand is taken from the stack only above the arguments. -/
theorem of_operand (hs : s.Inside lower frame below) (h : operand pc s = .ok v s') :
    frame.floor < s.stack.size ∧ s' = { s with stack := s.stack.pop } := by
  obtain ⟨locals, hback, -⟩ := hs.back?
  simp only [operand, hback] at h
  split at h
  · cases h
  · rename_i hlt
    split at h
    · cases h
      exact ⟨Nat.lt_of_not_le hlt, rfl⟩
    · cases h

theorem operand (hs : s.Inside lower frame below) (h : operand pc s = .ok v s') : s'.Inside lower frame below := by
  obtain ⟨hlt, rfl⟩ := hs.of_operand h
  refine ⟨hs.frames, fun i hi => ?_, ?_⟩
  · have hi' : i < s.stack.size - 1 := by
      have := frame.base_le_floor
      omega
    rw [← hs.cells i hi, Array.getElem?_pop, if_pos hi']
  · simp only [Array.size_pop]
    omega

theorem ask {α : Type} {request : η → Except Fault α × η} {a : α} (hs : s.Inside lower frame below)
    (h : ask request s = .ok a s') : s'.Inside lower frame below := by
  simp only [ExecM.ask] at h
  split at h
  · cases h
    exact ⟨hs.frames, hs.cells, hs.floor⟩
  · cases h

theorem storeArg {index : Nat} {u : Unit} (hs : s.Inside lower frame below) (h : storeArg pc index v s = .ok u s') :
    s'.Inside lower frame below := by
  obtain ⟨locals, hback, -⟩ := hs.back?
  simp only [ExecM.storeArg, hback] at h
  split at h
  · cases h
    refine ⟨hs.frames, fun i hi => ?_, ?_⟩
    · have hne : frame.base + index ≠ i := by omega
      rw [← hs.cells i hi, Array.getElem?_setIfInBounds, if_neg hne]
    · simp only [Array.size_setIfInBounds]
      exact hs.floor
  · cases h

theorem storeLocal {index : Nat} {u : Unit} (hs : s.Inside lower frame below) (h : storeLocal pc index v s = .ok u s') :
    s'.Inside lower frame below := by
  obtain ⟨locals, hback, hpop⟩ := hs.back?
  simp only [ExecM.storeLocal, hback] at h
  split at h
  · cases h
    exact ⟨⟨_, by rw [hpop]⟩, hs.cells, hs.floor⟩
  · cases h

/-- Operands lie above the arguments. -/
theorem of_operandsBase {count base : Nat} (hs : s.Inside lower frame below)
    (h : operandsBase pc count s = .ok base s') :
    frame.floor ≤ base ∧ base + count = s.stack.size ∧ s' = s := by
  obtain ⟨locals, hback, -⟩ := hs.back?
  have hfloor : Frame.floor { frame with locals } = frame.floor := rfl
  simp only [operandsBase, hback, hfloor] at h
  split at h
  · rename_i hle
    cases h
    exact ⟨by omega, by omega, rfl⟩
  · cases h

theorem operandsFrom {base : Nat} {xs : List Word} (hs : s.Inside lower frame below) (hbase : frame.floor ≤ base)
    (hle : base ≤ s.stack.size) (h : operandsFrom base s = .ok xs s') : s'.Inside lower frame below := by
  cases h
  refine ⟨hs.frames, fun i hi => ?_, ?_⟩
  · have hi' : i < base := Nat.lt_of_lt_of_le hi (Nat.le_trans frame.base_le_floor hbase)
    rw [← hs.cells i hi, getElem?_shrink hi']
  · simp only [Array.size_shrink]
    omega

variable [Host η]

theorem load {slot : Slot} (hs : s.Inside lower frame below) (h : Machine.load pc slot s = .ok v s') :
    s'.Inside lower frame below := by
  cases slot with
  | arg index =>
    obtain ⟨locals, hback, -⟩ := hs.back?
    simp only [Machine.load, loadArg, hback] at h
    split at h
    · cases h
      exact hs
    · cases h
  | loc index =>
    obtain ⟨locals, hback, -⟩ := hs.back?
    simp only [Machine.load, loadLocal, hback] at h
    split at h
    · cases h
      exact hs
    · cases h
  | global id =>
    simp only [Machine.load] at h
    exact hs.ask h

theorem store {slot : Slot} {u : Unit} (hs : s.Inside lower frame below) (h : Machine.store pc v slot s = .ok u s') :
    s'.Inside lower frame below := by
  cases slot with
  | arg index => exact hs.storeArg h
  | loc index => exact hs.storeLocal h
  | global id =>
    simp only [Machine.store] at h
    exact hs.ask h

omit [Host η] in
theorem calculate {op : Arith} {a b : Word} (hs : s.Inside lower frame below)
    (h : Machine.calculate pc op a b s = .ok v s') : s'.Inside lower frame below := by
  cases hr : op.eval a b with
  | ok r =>
    simp only [Machine.calculate, hr] at h
    cases h
    exact hs
  | error e => cases e <;> simp only [Machine.calculate, hr] at h <;> cases h

theorem callHost {id argc : Nat} {kind : FunctionKind} {u : Unit} (hs : s.Inside lower frame below)
    (h : Machine.callHost pc id argc kind s = .ok u s') : s'.Inside lower frame below := by
  obtain ⟨base, s₁, h₁, hrest⟩ := EvalM.bind_eq_ok h
  obtain ⟨hfloor, hbase, rfl⟩ := hs.of_operandsBase h₁
  obtain ⟨xs, s₂, h₂, hrest⟩ := EvalM.bind_eq_ok hrest
  have hs₂ := hs.operandsFrom hfloor (by omega) h₂
  obtain ⟨v, s₃, h₃, hrest⟩ := EvalM.bind_eq_ok hrest
  cases kind with
  | func => exact (hs₂.ask h₃).push hrest
  | proc =>
    cases hrest
    exact hs₂.ask h₃

end State.Inside

theorem ExecM.leave_ok {lower : Array Frame} {frame : Frame} {s s' : State η} {pc : Nat} {result : Option Word}
    {next : Option Nat} (hframes : s.frames = lower.push frame) (h : leave pc result s = .ok next s') :
    frame.returnAddress = next ∧ (next.isSome = true →
      s' = { s with stack := s.stack.shrink frame.base ++ result.toArray, frames := lower }) := by
  simp only [leave, hframes, Array.back?_push, Array.pop_push] at h
  cases haddress : frame.returnAddress with
  | none =>
    simp only [haddress] at h
    cases h
    exact ⟨rfl, by simp⟩
  | some address =>
    simp only [haddress] at h
    cases result with
    | none =>
      cases h
      exact ⟨rfl, by simp⟩
    | some value =>
      cases h
      exact ⟨rfl, by simp⟩

/-! ## Steps -/

namespace Machine

/-- What a step can lead to when the innermost frame is `frame` and lies on the frames `lower`. -/
inductive Move (m : Machine) (pc : Nat) (s : State η) (lower : Array Frame) (frame : Frame) : Nat → State η → Prop
  /-- The next instruction or the target of a jump, inside the same frame. -/
  | stay {i : Instruction} {pc' : Nat} {s' : State η} : m.image.code[pc]? = some i →
    (pc' = pc + 1 ∨ i.target? = some pc') → s'.Inside lower frame s.stack → Move m pc s lower frame pc' s'
  /-- A function, if there is room for one more call. -/
  | enter {id : Nat} {entry : Entry} : m.image.code[pc]? = some (.call id entry.params) →
    m.image.entries[id]? = some entry → s.frames.size < m.maxCallDepth →
    frame.floor + entry.params ≤ s.stack.size →
    Move m pc s lower frame entry.address
      { s with frames := s.frames.push (.ofEntry entry (some (pc + 1)) (s.stack.size - entry.params)) }
  /-- The caller, which gets the result. -/
  | leave {pc' : Nat} (result : Option Word) : frame.returnAddress = some pc' →
    Move m pc s lower frame pc' { s with stack := s.stack.shrink frame.base ++ result.toArray, frames := lower }

variable {m : Machine} {pc pc' : Nat} {s s' : State η} {lower : Array Frame} {frame : Frame}

theorem enterFunction_ok {id argc address : Nat} (hframes : s.frames = lower.push frame)
    (h : m.enterFunction pc id argc s = .ok address s') :
    ∃ entry, m.image.entries[id]? = some entry ∧ entry.params = argc ∧ s.frames.size < m.maxCallDepth ∧
      frame.floor + argc ≤ s.stack.size ∧ address = entry.address ∧
      s' = { s with frames := s.frames.push (.ofEntry entry (some (pc + 1)) (s.stack.size - argc)) } := by
  obtain ⟨_, _, hget, h⟩ := EvalM.bind_eq_ok h
  cases hget
  split at h
  · cases h
  · rename_i hroom
    cases hentry : m.image.entries[id]? with
    | none =>
      simp only [hentry] at h
      cases h
    | some entry =>
      simp only [hentry] at h
      split at h
      · cases h
      · rename_i hparams
        obtain ⟨base, mid, hb, h⟩ := EvalM.bind_eq_ok h
        obtain ⟨_, mid', he, h⟩ := EvalM.bind_eq_ok h
        simp only [ExecM.operandsBase, hframes, Array.back?_push] at hb
        split at hb
        · rename_i hle
          cases hb
          cases he
          cases h
          exact ⟨entry, rfl, Decidable.not_not.1 hparams, Nat.lt_of_not_le hroom, hle, rfl, rfl⟩
        · cases hb

theorem returnFrom_ok {result : Option Word} (hframes : s.frames = lower.push frame)
    (h : returnFrom pc result s = .ok (.goto pc') s') : frame.returnAddress = some pc' ∧
      s' = { s with stack := s.stack.shrink frame.base ++ result.toArray, frames := lower } := by
  obtain ⟨next, mid, hl, h⟩ := EvalM.bind_eq_ok h
  obtain ⟨hnext, hstate⟩ := ExecM.leave_ok hframes hl
  split at h
  · cases h
    exact ⟨hnext, hstate rfl⟩
  · cases h

variable [Host η]

theorem move_of_exec {i : Instruction} (hi : m.image.code[pc]? = some i) (hframes : s.frames = lower.push frame)
    (hfloor : frame.floor ≤ s.stack.size) (h : m.exec pc i s = .ok (.goto pc') s') :
    m.Move pc s lower frame pc' s' := by
  have hs : s.Inside lower frame s.stack := ⟨⟨frame.locals, hframes⟩, fun _ _ => rfl, hfloor⟩
  cases i with
  | push v =>
    obtain ⟨_, s₁, h₁, h⟩ := EvalM.bind_eq_ok h
    cases h
    exact .stay hi (.inl rfl) (hs.push h₁)
  | pop =>
    obtain ⟨v, s₁, h₁, h⟩ := EvalM.bind_eq_ok h
    cases h
    exact .stay hi (.inl rfl) (hs.operand h₁)
  | load slot =>
    obtain ⟨v, s₁, h₁, h⟩ := EvalM.bind_eq_ok h
    obtain ⟨_, s₂, h₂, h⟩ := EvalM.bind_eq_ok h
    cases h
    exact .stay hi (.inl rfl) ((hs.load h₁).push h₂)
  | store slot =>
    obtain ⟨v, s₁, h₁, h⟩ := EvalM.bind_eq_ok h
    obtain ⟨_, s₂, h₂, h⟩ := EvalM.bind_eq_ok h
    cases h
    exact .stay hi (.inl rfl) ((hs.operand h₁).store h₂)
  | neg =>
    obtain ⟨v, s₁, h₁, h⟩ := EvalM.bind_eq_ok h
    obtain ⟨_, s₂, h₂, h⟩ := EvalM.bind_eq_ok h
    cases h
    exact .stay hi (.inl rfl) ((hs.operand h₁).push h₂)
  | arith op =>
    obtain ⟨right, s₁, h₁, h⟩ := EvalM.bind_eq_ok h
    obtain ⟨left, s₂, h₂, h⟩ := EvalM.bind_eq_ok h
    obtain ⟨v, s₃, h₃, h⟩ := EvalM.bind_eq_ok h
    obtain ⟨_, s₄, h₄, h⟩ := EvalM.bind_eq_ok h
    cases h
    exact .stay hi (.inl rfl) ((((hs.operand h₁).operand h₂).calculate h₃).push h₄)
  | jump target =>
    cases h
    exact .stay hi (.inr rfl) hs
  | jumpIfZero target =>
    obtain ⟨v, s₁, h₁, h⟩ := EvalM.bind_eq_ok h
    split at h
    · cases h
      exact .stay hi (.inr rfl) (hs.operand h₁)
    · cases h
      exact .stay hi (.inl rfl) (hs.operand h₁)
  | jumpIfNonZero target =>
    obtain ⟨v, s₁, h₁, h⟩ := EvalM.bind_eq_ok h
    split at h
    · cases h
      exact .stay hi (.inl rfl) (hs.operand h₁)
    · cases h
      exact .stay hi (.inr rfl) (hs.operand h₁)
  | call id argc =>
    obtain ⟨address, s₁, h₁, h⟩ := EvalM.bind_eq_ok h
    obtain ⟨entry, hentry, rfl, hroom, hargs, rfl, rfl⟩ := enterFunction_ok hframes h₁
    cases h
    exact .enter hi hentry hroom hargs
  | callExternal id argc kind =>
    obtain ⟨_, s₁, h₁, h⟩ := EvalM.bind_eq_ok h
    cases h
    exact .stay hi (.inl rfl) (hs.callHost h₁)
  | ret =>
    obtain ⟨haddress, rfl⟩ := returnFrom_ok hframes h
    exact .leave none haddress
  | retValue =>
    obtain ⟨v, s₁, h₁, h⟩ := EvalM.bind_eq_ok h
    obtain ⟨hlt, rfl⟩ := hs.of_operand h₁
    obtain ⟨haddress, rfl⟩ := returnFrom_ok (s := { s with stack := s.stack.pop }) hframes h
    have hbase : frame.base < s.stack.size := Nat.lt_of_le_of_lt frame.base_le_floor hlt
    simp only [shrink_pop hbase]
    exact .leave (some v) haddress

theorem move_of_step (hframes : s.frames = lower.push frame) (hfloor : frame.floor ≤ s.stack.size)
    (h : m.step pc s = .next pc' s') : m.Move pc s lower frame pc' s' := by
  unfold step at h
  split at h
  · cases h
  · rename_i i hi
    split at h
    · rename_i hexec
      cases h
      exact move_of_exec hi hframes hfloor hexec
    · cases h
    · cases h

end Machine

end Wordlang
