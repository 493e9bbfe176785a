import Mathlib.Logic.Relation
import Wordlang.Proofs.Machine.Moves

/-!
# Frames on the stack

Whatever code a machine runs, its frames lie one above the other on the stack, each with its arguments on the stack,
and only the first one has no caller. So no instruction addresses a cell that the stack does not have, and a function
cannot change the operands, arguments and locals of those that wait for it.

Main statement: `Machine.frames_are_isolated`.
-/

namespace Wordlang

variable {η : Type}

/-! ## Well-framed states -/

/-- How the frames lie on the stack while a run goes on with at most `limit` nested calls. -/
structure State.WellFramed (limit : Nat) (s : State η) : Prop where
  /-- The first frame is at the bottom of the stack and has no caller. -/
  bottom : ∃ frame : Frame, s.frames[0]? = some frame ∧ frame.base = 0 ∧ frame.returnAddress = none
  /-- All other frames have one. -/
  callers : ∀ (i : Nat) (frame : Frame), s.frames[i + 1]? = some frame → frame.returnAddress.isSome = true
  /-- A frame starts above the arguments of the one below it. -/
  nested : ∀ (i : Nat) (lower upper : Frame), s.frames[i]? = some lower → s.frames[i + 1]? = some upper →
    lower.floor ≤ upper.base
  /-- The arguments of the innermost frame are on the stack. -/
  operands : ∀ frame : Frame, s.frames.back? = some frame → frame.floor ≤ s.stack.size
  depth : s.frames.size ≤ max 1 limit

namespace State.WellFramed

variable {limit : Nat} {s s' : State η} {lower : Array Frame} {frame : Frame}

theorem exists_top (h : s.WellFramed limit) :
    ∃ (lower : Array Frame) (frame : Frame), s.frames = lower.push frame ∧ frame.floor ≤ s.stack.size := by
  obtain ⟨first, hfirst, -⟩ := h.bottom
  have hne : s.frames.size ≠ 0 := by
    intro hsize
    rw [Array.getElem?_eq_none (by omega)] at hfirst
    cases hfirst
  obtain ⟨lower, frame, hframes⟩ := Array.eq_push_of_size_ne_zero hne
  exact ⟨lower, frame, hframes, h.operands frame (by rw [hframes, Array.back?_push])⟩

/-- Frames further up start further up. -/
theorem base_le (h : s.WellFramed limit) {i : Nat} {f : Frame} (hf : s.frames[i]? = some f) :
    ∀ {j : Nat} {g : Frame}, i ≤ j → s.frames[j]? = some g → f.base ≤ g.base := by
  intro j
  induction j with
  | zero =>
    intro g hij hg
    cases Nat.le_zero.1 hij
    cases hf.symm.trans hg
    exact Nat.le_refl _
  | succ j ih =>
    intro g hij hg
    by_cases heq : i = j + 1
    · subst heq
      cases hf.symm.trans hg
      exact Nat.le_refl _
    · have hlt : j < s.frames.size := by
        have := (Array.getElem?_eq_some_iff.1 hg).1
        omega
      have hbelow := ih (by omega) (Array.getElem?_eq_getElem hlt)
      have hstep := h.nested j _ g (Array.getElem?_eq_getElem hlt) hg
      have hfloor := s.frames[j].base_le_floor
      omega

/-- A state inside the same frame. Only the locals of that frame can differ. -/
theorem stay {below : Array Word} (h : s.WellFramed limit) (hframes : s.frames = lower.push frame)
    (hs : s'.Inside lower frame below) : s'.WellFramed limit := by
  obtain ⟨locals, hframes'⟩ := hs.frames
  have hsize : s'.frames.size = s.frames.size := by simp [hframes, hframes']
  have hshape : ∀ (i : Nat) (f' : Frame), s'.frames[i]? = some f' → ∃ f : Frame, s.frames[i]? = some f ∧
      f'.base = f.base ∧ f'.floor = f.floor ∧ f'.returnAddress = f.returnAddress := by
    intro i f' hf'
    rw [hframes', Array.getElem?_push] at hf'
    rw [hframes, Array.getElem?_push]
    by_cases hi : i = lower.size
    · rw [if_pos hi] at hf' ⊢
      cases hf'
      exact ⟨frame, rfl, rfl, rfl, rfl⟩
    · rw [if_neg hi] at hf' ⊢
      exact ⟨f', hf', rfl, rfl, rfl⟩
  constructor
  · obtain ⟨first, hfirst, hbase, haddress⟩ := h.bottom
    have hpos : 0 < s'.frames.size := by simp [hframes']
    obtain ⟨f, hf, hfbase, -, hfaddress⟩ := hshape 0 _ (Array.getElem?_eq_getElem hpos)
    cases hfirst.symm.trans hf
    exact ⟨_, Array.getElem?_eq_getElem hpos, hfbase.trans hbase, hfaddress.trans haddress⟩
  · intro i f' hf'
    obtain ⟨f, hf, -, -, haddress⟩ := hshape _ f' hf'
    rw [haddress]
    exact h.callers i f hf
  · intro i f' g' hf' hg'
    obtain ⟨f, hf, -, hfloor, -⟩ := hshape _ f' hf'
    obtain ⟨g, hg, hbase, -, -⟩ := hshape _ g' hg'
    rw [hfloor, hbase]
    exact h.nested i f g hf hg
  · intro f' hf'
    rw [hframes', Array.back?_push] at hf'
    cases hf'
    exact hs.floor
  · rw [hsize]
    exact h.depth

/-- A frame for a call on top of the others. -/
theorem enter {callee : Frame} (h : s.WellFramed limit) (hframes : s.frames = lower.push frame)
    (hroom : s.frames.size < limit) (hbase : frame.floor ≤ callee.base) (hargs : callee.floor ≤ s.stack.size)
    (haddress : callee.returnAddress.isSome = true) :
    State.WellFramed limit { s with frames := s.frames.push callee } := by
  have hsize : s.frames.size = lower.size + 1 := by simp [hframes]
  constructor
  · obtain ⟨first, hfirst, hzero⟩ := h.bottom
    refine ⟨first, ?_, hzero⟩
    rw [Array.getElem?_push, if_neg (by omega)]
    exact hfirst
  · intro i f hf
    rw [Array.getElem?_push] at hf
    split at hf
    · cases hf
      exact haddress
    · exact h.callers i f hf
  · intro i f g hf hg
    rw [Array.getElem?_push] at hf hg
    by_cases hi : i + 1 = s.frames.size
    · have htop : i = lower.size := by omega
      rw [if_pos hi] at hg
      rw [if_neg (by omega), hframes, Array.getElem?_push, if_pos htop] at hf
      cases hf
      cases hg
      exact hbase
    · rw [if_neg hi] at hg
      rw [if_neg (by have := (Array.getElem?_eq_some_iff.1 hg).1; omega)] at hf
      exact h.nested i f g hf hg
  · intro f hf
    rw [Array.back?_push] at hf
    cases hf
    exact hargs
  · simp only [Array.size_push]
    omega

/-- The frames that are left when the innermost one, which has a caller, is gone. -/
theorem leave {stack : Array Word} (h : s.WellFramed limit) (hframes : s.frames = lower.push frame)
    (haddress : frame.returnAddress.isSome = true) (hstack : frame.base ≤ stack.size) :
    State.WellFramed limit { s with stack, frames := lower } := by
  have hsize : s.frames.size = lower.size + 1 := by simp [hframes]
  have hlower : ∀ (i : Nat) (f : Frame), lower[i]? = some f → s.frames[i]? = some f := by
    intro i f hf
    have hlt := (Array.getElem?_eq_some_iff.1 hf).1
    rw [hframes, Array.getElem?_push, if_neg (Nat.ne_of_lt hlt)]
    exact hf
  have hpos : lower.size ≠ 0 := by
    intro hzero
    obtain ⟨first, hfirst, -, hnone⟩ := h.bottom
    rw [hframes, Array.getElem?_push, if_pos hzero.symm] at hfirst
    cases hfirst
    rw [hnone] at haddress
    cases haddress
  constructor
  · obtain ⟨first, hfirst, hzero⟩ := h.bottom
    refine ⟨first, ?_, hzero⟩
    rw [hframes, Array.getElem?_push, if_neg (Ne.symm hpos)] at hfirst
    exact hfirst
  · intro i f hf
    exact h.callers i f (hlower _ f hf)
  · intro i f g hf hg
    exact h.nested i f g (hlower _ f hf) (hlower _ g hg)
  · intro f hf
    obtain ⟨rest, hrest⟩ := Array.back?_eq_some_iff.1 hf
    have hrest : lower = rest.push f := hrest
    have hfirst : s.frames[rest.size]? = some f := hlower _ f (by simp [hrest])
    have htop : s.frames[rest.size + 1]? = some frame := by
      rw [hframes, Array.getElem?_push, if_pos (by simp [hrest])]
    exact Nat.le_trans (h.nested _ f frame hfirst htop) hstack
  · have := h.depth
    simp only
    omega

end State.WellFramed

namespace Machine

/-! ## Bounds of the stack -/

/-- The stack has the cells that an instruction addresses, once its own checks have passed: the argument that it
loads or stores, the arguments that it hands to the host, and those below the frame that it leaves. -/
def InBounds (pc : Nat) (s : State η) : Instruction → Prop
  | .load (.arg index) => ∀ value s', ExecM.loadArg pc index s = .ok value s' →
    ∃ frame ∈ s.frames.back?, s.stack[frame.base + index]? = some value
  | .store (.arg index) => ∀ value mid u s', ExecM.operand pc s = .ok value mid →
    ExecM.storeArg pc index value mid = .ok u s' →
    ∃ frame ∈ mid.frames.back?, frame.base + index < mid.stack.size
  | .callExternal _ argc _ => ∀ base s', ExecM.operandsBase pc argc s = .ok base s' → base + argc = s.stack.size
  | .ret => ∀ frame ∈ s.frames.back?, frame.base ≤ s.stack.size
  | .retValue => ∀ value mid, ExecM.operand pc s = .ok value mid →
    ∀ frame ∈ mid.frames.back?, frame.base ≤ mid.stack.size
  | _ => True

theorem inBounds_of_wellFramed {limit pc : Nat} {s : State η} (h : s.WellFramed limit) (i : Instruction) :
    InBounds pc s i := by
  obtain ⟨lower, frame, hframes, hfloor⟩ := h.exists_top
  have hs : s.Inside lower frame s.stack := ⟨⟨frame.locals, hframes⟩, fun _ _ => rfl, hfloor⟩
  have hback : s.frames.back? = some frame := by rw [hframes, Array.back?_push]
  have hbase := frame.base_le_floor
  cases i with
  | load slot =>
    cases slot with
    | arg index =>
      intro value s' hload
      simp only [ExecM.loadArg, hback] at hload
      split at hload
      · rename_i hlt
        cases hload
        have hcell : frame.base + index < s.stack.size := by
          simp only [Frame.floor] at hfloor
          omega
        exact ⟨frame, hback, by simp [hcell]⟩
      · cases hload
    | loc index => trivial
    | global id => trivial
  | store slot =>
    cases slot with
    | arg index =>
      intro value mid u s' hoperand hstore
      obtain ⟨hlt, rfl⟩ := hs.of_operand hoperand
      simp only [ExecM.storeArg, hback] at hstore
      split at hstore
      · rename_i hindex
        refine ⟨frame, hback, ?_⟩
        simp only [Frame.floor] at hlt
        simp only [Array.size_pop]
        omega
      · cases hstore
    | loc index => trivial
    | global id => trivial
  | callExternal id argc kind =>
    intro base s' hoperands
    exact (hs.of_operandsBase hoperands).2.1
  | ret =>
    intro f hf
    cases hback.symm.trans hf
    omega
  | retValue =>
    intro value mid hoperand f hf
    obtain ⟨hlt, rfl⟩ := hs.of_operand hoperand
    cases hback.symm.trans hf
    simp only [Array.size_pop]
    omega
  | _ => trivial

/-! ## Runs -/

variable {m : Machine} {x y : Nat × State η}

/-- The run of a call that passes the checks on its name and its arguments starts at `x`. -/
def Starts (m : Machine) (name : String) (args : List Word) (s : State η) (x : Nat × State η) : Prop :=
  ∃ id entry, m.image.find? name = some (id, entry) ∧ args.length = entry.params ∧
    x = (entry.address, ⟨s.host, args.toArray, #[.ofEntry entry none 0]⟩)

theorem wellFramed_of_starts {name : String} {args : List Word} {s : State η} (h : m.Starts name args s x) :
    x.2.WellFramed m.maxCallDepth := by
  obtain ⟨id, entry, -, hargs, rfl⟩ := h
  have hone : ∀ i (f : Frame), #[Frame.ofEntry entry none 0][i + 1]? = some f → False := by
    intro i f hf
    rw [Array.getElem?_eq_none (by simp)] at hf
    cases hf
  constructor
  · exact ⟨_, rfl, rfl, rfl⟩
  · intro i f hf
    exact (hone i f hf).elim
  · intro i f g hf hg
    exact (hone i g hg).elim
  · intro f hf
    cases hf
    simp [Frame.floor, Frame.ofEntry, hargs]
  · simp only [List.size_toArray, List.length_singleton]
    omega

variable [Host η]

/-- One step leads from a point of a run, which is an address and a state, to the next. -/
def Goes (m : Machine) (x y : Nat × State η) : Prop := m.step x.1 x.2 = .next y.1 y.2

/-- The points that a run comes to. -/
def Reaches (m : Machine) : Nat × State η → Nat × State η → Prop := Relation.ReflTransGen m.Goes

/-- The points that a run comes to as long as it has more than `depth` frames. -/
def ReachesAbove (m : Machine) (depth : Nat) : Nat × State η → Nat × State η → Prop :=
  Relation.ReflTransGen fun x y => m.Goes x y ∧ depth < y.2.frames.size

theorem exists_move {limit pc : Nat} {s : State η} (hx : x.2.WellFramed limit) (h : m.Goes x (pc, s)) :
    ∃ (lower : Array Frame) (frame : Frame), x.2.frames = lower.push frame ∧ frame.floor ≤ x.2.stack.size ∧
      m.Move x.1 x.2 lower frame pc s := by
  obtain ⟨lower, frame, hframes, hfloor⟩ := hx.exists_top
  exact ⟨lower, frame, hframes, hfloor, move_of_step hframes hfloor h⟩

theorem wellFramed_of_goes (hx : x.2.WellFramed m.maxCallDepth) (h : m.Goes x y) :
    y.2.WellFramed m.maxCallDepth := by
  obtain ⟨pc, s⟩ := y
  obtain ⟨lower, frame, hframes, hfloor, hmove⟩ := exists_move hx h
  cases hmove with
  | stay hi hpc hs => exact hx.stay hframes hs
  | enter hi hentry hroom hargs =>
    refine hx.enter hframes hroom ?_ ?_ rfl
    · simp only [Frame.ofEntry]
      omega
    · simp only [Frame.ofEntry, Frame.floor]
      omega
  | leave result haddress =>
    refine hx.leave hframes (by rw [haddress]; rfl) ?_
    have := frame.base_le_floor
    simp only [Array.size_append, Array.size_shrink]
    omega

theorem wellFramed_of_reaches (hx : x.2.WellFramed m.maxCallDepth) (h : m.Reaches x y) :
    y.2.WellFramed m.maxCallDepth := by
  induction h with
  | refl => exact hx
  | tail _ hstep ih => exact wellFramed_of_goes ih hstep

/-! ## Isolation -/

/-- What stays as it was in the state `s` of a call, while the frame `callee` of the called function is there. -/
structure Isolated (s : State η) (callee : Frame) (s' : State η) : Prop where
  frames : ∀ i < s.frames.size, s'.frames[i]? = s.frames[i]?
  called : ∃ locals, s'.frames[s.frames.size]? = some { callee with locals }
  cells : ∀ i < callee.base, s'.stack[i]? = s.stack[i]?

variable {s : State η} {callee : Frame}

theorem Isolated.goes (h : Isolated s callee x.2) (hx : x.2.WellFramed m.maxCallDepth) (hgoes : m.Goes x y)
    (hdepth : s.frames.size < y.2.frames.size) : Isolated s callee y.2 := by
  obtain ⟨pc, s'⟩ := y
  obtain ⟨lower, frame, hframes, hfloor, hmove⟩ := exists_move hx hgoes
  obtain ⟨locals, hcallee⟩ := h.called
  have hsize : x.2.frames.size = lower.size + 1 := by simp [hframes]
  have hle : s.frames.size ≤ lower.size := by
    have := (Array.getElem?_eq_some_iff.1 hcallee).1
    omega
  have htop : x.2.frames[lower.size]? = some frame := by simp [hframes]
  have hlower : ∀ i < lower.size, lower[i]? = x.2.frames[i]? := by
    intro i hi
    rw [hframes, Array.getElem?_push, if_neg (Nat.ne_of_lt hi)]
  have hbase : callee.base ≤ frame.base := hx.base_le hcallee hle htop
  cases hmove with
  | stay hi hpc hs =>
    obtain ⟨locals', hframes'⟩ := hs.frames
    refine ⟨fun i hi => ?_, ?_, fun i hi => ?_⟩
    · rw [hframes', Array.getElem?_push, if_neg (by omega), hlower i (by omega)]
      exact h.frames i hi
    · rw [hframes', Array.getElem?_push]
      by_cases heq : s.frames.size = lower.size
      · rw [heq, htop] at hcallee
        cases hcallee
        exact ⟨locals', by rw [if_pos heq]⟩
      · exact ⟨locals, by rw [if_neg heq, hlower _ (by omega), hcallee]⟩
    · rw [hs.cells i (by omega)]
      exact h.cells i hi
  | enter =>
    refine ⟨fun i hi => ?_, ⟨locals, ?_⟩, h.cells⟩
    · rw [Array.getElem?_push, if_neg (by omega)]
      exact h.frames i hi
    · rw [Array.getElem?_push, if_neg (by omega)]
      exact hcallee
  | leave result =>
    have hlt : s.frames.size < lower.size := hdepth
    have hheight := frame.base_le_floor
    refine ⟨fun i hi => ?_, ⟨locals, ?_⟩, fun i hi => ?_⟩
    · rw [hlower i (by omega)]
      exact h.frames i hi
    · rw [hlower _ hlt]
      exact hcallee
    · rw [Array.getElem?_append, if_pos (by simp; omega), getElem?_shrink (by omega)]
      exact h.cells i hi

theorem Isolated.reaches (h : Isolated s callee x.2) (hx : x.2.WellFramed m.maxCallDepth)
    (hreach : m.ReachesAbove s.frames.size x y) : Isolated s callee y.2 ∧ y.2.WellFramed m.maxCallDepth := by
  induction hreach with
  | refl => exact ⟨h, hx⟩
  | tail _ hstep ih => exact ⟨ih.1.goes ih.2 hstep.1 hstep.2, wellFramed_of_goes ih.2 hstep.1⟩

/-- The step that leaves the frame of the called function gives the caller back what it had. -/
theorem Isolated.returned (h : Isolated s callee x.2) (hx : x.2.WellFramed m.maxCallDepth) (hgoes : m.Goes x y)
    (hdepth : y.2.frames.size = s.frames.size) :
    callee.returnAddress = some y.1 ∧ y.2.frames = s.frames ∧ (∀ i < callee.base, y.2.stack[i]? = s.stack[i]?) ∧
      ∃ result : Option Word, y.2.stack.size = callee.base + result.toArray.size := by
  obtain ⟨pc, s'⟩ := y
  obtain ⟨lower, frame, hframes, hfloor, hmove⟩ := exists_move hx hgoes
  obtain ⟨locals, hcallee⟩ := h.called
  have hsize : x.2.frames.size = lower.size + 1 := by simp [hframes]
  have hlt := (Array.getElem?_eq_some_iff.1 hcallee).1
  cases hmove with
  | stay hi hpc hs =>
    obtain ⟨locals', hframes'⟩ := hs.frames
    have : s'.frames.size = lower.size + 1 := by simp [hframes']
    simp only at hdepth
    omega
  | enter =>
    simp only [Array.size_push] at hdepth
    omega
  | leave result haddress =>
    have hlower : lower.size = s.frames.size := hdepth
    rw [hframes, Array.getElem?_push, if_pos hlower.symm] at hcallee
    cases hcallee
    have hheight : callee.base ≤ x.2.stack.size := Nat.le_trans (Frame.base_le_floor { callee with locals }) hfloor
    refine ⟨haddress, Array.ext_getElem? fun i => ?_, fun i hi => ?_, result, ?_⟩
    · by_cases hi : i < s.frames.size
      · rw [← h.frames i hi, hframes, Array.getElem?_push, if_neg (by omega)]
      · rw [Array.getElem?_eq_none (by simp only; omega), Array.getElem?_eq_none (by omega)]
    · rw [Array.getElem?_append, if_pos (by simp at hi ⊢; omega), getElem?_shrink hi]
      exact h.cells i hi
    · simp only [Array.size_append, Array.size_shrink]
      omega

/-- In every state that a call comes to, the frames lie one above the other and no instruction addresses a cell
outside of the stack. From a step that enters a function until the matching return, the frames of the callers with
their locals and the cells below the function's base stay as they are, and the return gives them back. -/
theorem frames_are_isolated {name : String} {args : List Word} (hstart : m.Starts name args s x)
    (hreach : m.Reaches x y) :
    y.2.WellFramed m.maxCallDepth ∧ (∀ i, m.image.code[y.1]? = some i → InBounds y.1 y.2 i) ∧
    ∀ z, m.Goes y z → y.2.frames.size < z.2.frames.size → ∃ callee, z.2.frames = y.2.frames.push callee ∧
      ∀ w, m.ReachesAbove y.2.frames.size z w →
        ((∀ i < y.2.frames.size, w.2.frames[i]? = y.2.frames[i]?) ∧
          ∀ i < callee.base, w.2.stack[i]? = y.2.stack[i]?) ∧
        ∀ v, m.Goes w v → v.2.frames.size = y.2.frames.size → v.1 = y.1 + 1 ∧ v.2.frames = y.2.frames ∧
          (∀ i < callee.base, v.2.stack[i]? = y.2.stack[i]?) ∧
          ∃ result : Option Word, v.2.stack.size = callee.base + result.toArray.size := by
  have hy := wellFramed_of_reaches (wellFramed_of_starts hstart) hreach
  refine ⟨hy, fun i _ => inBounds_of_wellFramed hy i, fun z hz hdepth => ?_⟩
  have hwz := wellFramed_of_goes hy hz
  obtain ⟨pc, s'⟩ := z
  obtain ⟨lower, frame, hframes, -, hmove⟩ := exists_move hy hz
  cases hmove with
  | stay hi hpc hs =>
    obtain ⟨locals, hframes'⟩ := hs.frames
    simp [hframes, hframes'] at hdepth
  | leave result haddress =>
    simp only [hframes, Array.size_push] at hdepth
    omega
  | enter =>
    rename_i id entry hi hentry hroom hargs
    refine ⟨_, rfl, fun w hw => ?_⟩
    have hcall : Isolated y.2 (.ofEntry entry (some (y.1 + 1)) (y.2.stack.size - entry.params))
        { y.2 with frames := y.2.frames.push (.ofEntry entry (some (y.1 + 1)) (y.2.stack.size - entry.params)) } := by
      refine ⟨fun i hi => ?_, ⟨_, Array.getElem?_push_size⟩, fun _ _ => rfl⟩
      rw [Array.getElem?_push, if_neg (Nat.ne_of_lt hi)]
    obtain ⟨hiso, hww⟩ := hcall.reaches hwz hw
    refine ⟨⟨hiso.frames, hiso.cells⟩, fun v hv hreturn => ?_⟩
    obtain ⟨haddress, hrest⟩ := hiso.returned hww hv hreturn
    exact ⟨(Option.some.inj haddress).symm, hrest⟩

/-! Code that no program compiles to: the function at 5 overwrites its argument and its local while an operand of its
caller waits below. -/

def overwriting : Machine :=
  ⟨⟨#[.push 7, .push 5, .call 1 1, .arith .add, .retValue,
      .push 9, .store (.arg 0), .push 8, .store (.loc 0), .load (.arg 0), .retValue],
    #[⟨"Main", 0, 0, .func, 0⟩, ⟨"Set", 1, 1, .func, 5⟩]⟩, 2⟩

def idle : Bindings Unit := ⟨[], [], ()⟩

/-- The operand 7 and the argument 5 are on the stack, and the call comes next. -/
def beforeCall : Nat × State (Bindings Unit) := (2, ⟨idle, #[7, 5], #[⟨none, 0, 0, #[]⟩]⟩)

def insideCall : Nat × State (Bindings Unit) :=
  (5, ⟨idle, #[7, 5], #[⟨none, 0, 0, #[]⟩, ⟨some 3, 1, 1, #[0]⟩]⟩)

theorem overwriting_is_isolated :
    overwriting.Starts "Main" [] ⟨idle, #[], #[]⟩ (0, ⟨idle, #[], #[⟨none, 0, 0, #[]⟩]⟩) ∧
    overwriting.Reaches (0, ⟨idle, #[], #[⟨none, 0, 0, #[]⟩]⟩) beforeCall ∧ overwriting.Goes beforeCall insideCall ∧
    beforeCall.2.WellFramed 2 ∧ ∃ callee, insideCall.2.frames = beforeCall.2.frames.push callee ∧
      ∀ w, overwriting.ReachesAbove 1 insideCall w →
        (∀ i < 1, w.2.frames[i]? = beforeCall.2.frames[i]?) ∧ ∀ i < callee.base, w.2.stack[i]? = #[7, 5][i]? := by
  have hstart : overwriting.Starts "Main" [] ⟨idle, #[], #[]⟩ (0, ⟨idle, #[], #[⟨none, 0, 0, #[]⟩]⟩) :=
    ⟨0, ⟨"Main", 0, 0, .func, 0⟩, by decide +kernel, rfl, rfl⟩
  have hfirst : overwriting.Goes (0, ⟨idle, #[], #[⟨none, 0, 0, #[]⟩]⟩) (1, ⟨idle, #[7], #[⟨none, 0, 0, #[]⟩]⟩) := rfl
  have hsecond : overwriting.Goes (1, ⟨idle, #[7], #[⟨none, 0, 0, #[]⟩]⟩) beforeCall := rfl
  have hreach : overwriting.Reaches (0, ⟨idle, #[], #[⟨none, 0, 0, #[]⟩]⟩) beforeCall :=
    .tail (.tail .refl hfirst) hsecond
  have hcall : overwriting.Goes beforeCall insideCall := rfl
  obtain ⟨hframed, -, hisolated⟩ := frames_are_isolated hstart hreach
  obtain ⟨callee, hcallee, hrest⟩ := hisolated insideCall hcall (by decide)
  exact ⟨hstart, hreach, hcall, hframed, callee, hcallee, fun w hw => (hrest w hw).1⟩

end Machine

end Wordlang
