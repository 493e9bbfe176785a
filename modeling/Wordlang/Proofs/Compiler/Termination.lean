import Mathlib.Algebra.Group.Nat.Defs
import Wordlang.Proofs.Compiler.Jumps
import Wordlang.Proofs.Compiler.Refinement
import Wordlang.Proofs.Machine.Frames

/-!
# Compiled programs terminate

Code whose jumps lead forward carries out each of its instructions at most once in an activation, and the limit on
nested calls bounds how deep activations nest. So a run ends, however its functions call each other and whatever the
host answers, and the size of the code and the limit bound the number of its steps.

Main statement: `Program.call_terminates`.
-/

namespace Wordlang

namespace Machine

variable {η : Type} [Host η] {m : Machine} {pc pc' : Nat} {s s' : State η} {lower : Array Frame} {frame : Frame}

theorem run_next (h : m.step pc s = .next pc' s') (steps : Nat) : m.run (steps + 1) pc s = m.run steps pc' s' := by
  simp only [run, h]

/-- Within a number of steps, the innermost frame is left and its caller goes on, or the next step ends the run. -/
def LeavesWithin (m : Machine) (cost pc : Nat) (s : State η) (lower : Array Frame) (frame : Frame) : Prop :=
  ∃ n ≤ cost,
    (∃ pc' s', frame.returnAddress = some pc' ∧ s'.frames = lower ∧ s'.WellFramed m.maxCallDepth ∧
      ∀ k, m.run (k + n) pc s = m.run k pc' s') ∨
    ∃ r, ∀ k, m.run (k + n + 1) pc s = some r

namespace LeavesWithin

variable {cost cost' : Nat}

theorem mono (h : m.LeavesWithin cost pc s lower frame) (hle : cost ≤ cost') :
    m.LeavesWithin cost' pc s lower frame := by
  obtain ⟨n, hn, h⟩ := h
  exact ⟨n, Nat.le_trans hn hle, h⟩

/-- The next step ends the run. -/
theorem halt {result : Except Fault (Option Word)} (h : m.step pc s = .halt result s') :
    m.LeavesWithin cost pc s lower frame :=
  ⟨0, Nat.zero_le _, .inr ⟨(result, s'), fun k => by simp only [run, h]⟩⟩

/-- Some steps come first. The frame may have other locals after them. -/
theorem after {n : Nat} {frame' : Frame} (hfirst : ∀ k, m.run (k + n) pc s = m.run k pc' s')
    (haddress : frame'.returnAddress = frame.returnAddress) (h : m.LeavesWithin cost pc' s' lower frame') :
    m.LeavesWithin (cost + n) pc s lower frame := by
  obtain ⟨n', hn', h⟩ := h
  refine ⟨n' + n, by omega, ?_⟩
  rcases h with ⟨pc'', s'', haddress', hframes, hwell, hrun⟩ | ⟨r, hrun⟩
  · refine .inl ⟨pc'', s'', haddress ▸ haddress', hframes, hwell, fun k => ?_⟩
    rw [← Nat.add_assoc, hfirst, hrun]
  · refine .inr ⟨r, fun k => ?_⟩
    rw [← Nat.add_assoc, Nat.add_right_comm, hfirst, hrun]

/-- A call comes first, and the frame goes on when the called function has returned. -/
theorem call {callee : Frame} (hstep : m.step pc s = .next pc' s') (hframes : s.frames = lower.push frame)
    (hcallee : callee.returnAddress = some (pc + 1)) (h : m.LeavesWithin cost pc' s' s.frames callee)
    (hrest : ∀ s'' : State η, s''.WellFramed m.maxCallDepth → s''.frames = lower.push frame →
      m.LeavesWithin cost' (pc + 1) s'' lower frame) :
    m.LeavesWithin (cost' + (cost + 1)) pc s lower frame := by
  obtain ⟨n, hn, h⟩ := h
  rcases h with ⟨pc'', s'', haddress, hframes'', hwell, hrun⟩ | ⟨r, hrun⟩
  · cases hcallee.symm.trans haddress
    have hcall : ∀ k, m.run (k + (n + 1)) pc s = m.run k (pc + 1) s'' := by
      intro k
      rw [← Nat.add_assoc, run_next hstep, hrun]
    exact ((hrest s'' hwell (hframes''.trans hframes)).after hcall rfl).mono (by omega)
  · refine ⟨n + 1, by omega, .inr ⟨r, fun k => ?_⟩⟩
    rw [← Nat.add_assoc, run_next hstep, hrun]

end LeavesWithin

/-- A frame with at most `left` instructions ahead is left after as many steps, each of which may be a call. The
hypothesis on calls is about the frames one level further up. -/
theorem leavesWithin_of_calls {depth : Nat} (cost : Nat) (hforward : m.image.Forward)
    (hcalls : depth < m.maxCallDepth → ∀ (pc : Nat) (s : State η) (lower : Array Frame) (frame : Frame),
      s.WellFramed m.maxCallDepth → s.frames = lower.push frame → s.frames.size = depth + 1 →
      m.LeavesWithin cost pc s lower frame) :
    ∀ (left pc : Nat) (s : State η) (lower : Array Frame) (frame : Frame), s.WellFramed m.maxCallDepth →
      s.frames = lower.push frame → s.frames.size = depth → m.image.code.size ≤ pc + left →
      m.LeavesWithin (left * (cost + 1)) pc s lower frame := by
  intro left
  induction left with
  | zero =>
    intro pc s lower frame _ _ _ hleft
    have hend : m.image.code[pc]? = none := Array.getElem?_eq_none hleft
    have hstep : m.step pc s = .halt (.error (.invalidAddress pc)) s := by simp only [step, hend]
    exact .halt hstep
  | succ left ih =>
    intro pc s lower frame hs hframes hdepth hleft
    have hcost : (left + 1) * (cost + 1) = left * (cost + 1) + (cost + 1) := Nat.succ_mul _ _
    cases hstep : m.step pc s with
    | halt result s' => exact .halt hstep
    | next pc' s' =>
      have hs' : s'.WellFramed m.maxCallDepth := wellFramed_of_goes (x := (pc, s)) (y := (pc', s')) hs hstep
      have hmove : m.Move pc s lower frame pc' s' :=
        move_of_step hframes (hs.operands frame (by rw [hframes, Array.back?_push])) hstep
      cases hmove with
      | stay hi hpc hinside =>
        have hlt : pc < pc' := by
          rcases hpc with rfl | htarget
          · exact Nat.lt_succ_self pc
          · exact hforward pc _ hi pc' htarget
        obtain ⟨locals, hframes'⟩ := hinside.frames
        have hsize : s'.frames.size = depth := by
          rw [← hdepth, hframes, hframes', Array.size_push, Array.size_push]
        exact ((ih pc' s' lower _ hs' hframes' hsize (by omega)).after (run_next hstep) rfl).mono (by omega)
      | @enter _ entry hi hentry hroom hargs =>
        have hcallee := hcalls (by omega) entry.address _ s.frames _ hs' rfl (by simp only [Array.size_push, hdepth])
        rw [hcost]
        refine .call hstep hframes rfl hcallee fun s'' hs'' hframes'' => ?_
        have hsize : s''.frames.size = depth := by rw [← hdepth, hframes, hframes'']
        exact ih (pc + 1) s'' lower frame hs'' hframes'' hsize (by omega)
      | leave result haddress =>
        exact ⟨1, by omega, .inl ⟨pc', _, haddress, rfl, hs', fun k => run_next hstep k⟩⟩

/-- A call that may nest one level deeper outweighs all instructions with calls that may not. -/
theorem mul_pow_lt (size room : Nat) : size * (size + 1) ^ room < (size + 1) ^ (room + 1) := by
  have hpos : 0 < (size + 1) ^ room := Nat.pow_pos (Nat.succ_pos _)
  rw [Nat.pow_succ, Nat.mul_add, Nat.mul_comm size]
  omega

/-- The number of calls that may still nest bounds how long a frame takes. -/
theorem leavesWithin (hforward : m.image.Forward) : ∀ (room depth : Nat), m.maxCallDepth ≤ depth + room →
    ∀ (pc : Nat) (s : State η) (lower : Array Frame) (frame : Frame), s.WellFramed m.maxCallDepth →
      s.frames = lower.push frame → s.frames.size = depth →
      m.LeavesWithin (m.image.code.size * (m.image.code.size + 1) ^ room) pc s lower frame := by
  intro room
  induction room with
  | zero =>
    intro depth hroom pc s lower frame hs hframes hdepth
    have hcalls := leavesWithin_of_calls 0 hforward (fun hlt => by omega)
      m.image.code.size pc s lower frame hs hframes hdepth (by omega)
    exact hcalls.mono (by simp)
  | succ room ih =>
    intro depth hroom pc s lower frame hs hframes hdepth
    have hcalls := leavesWithin_of_calls _ hforward (fun _ => ih (depth + 1) (by omega))
      m.image.code.size pc s lower frame hs hframes hdepth (by omega)
    exact hcalls.mono (Nat.mul_le_mul_left _ (mul_pow_lt _ room))

/-- A call on a machine whose code jumps only forward is not cut off when it may take as many steps as this. -/
theorem call_eq_some (hforward : m.image.Forward) (name : String) (args : List Word) (s : State η) :
    ∃ r, m.call ((m.image.code.size + 1) ^ max 1 m.maxCallDepth) name args s = some r := by
  cases hfind : m.image.find? name with
  | none => simp only [call, hfind, Option.some.injEq, exists_eq']
  | some found =>
    obtain ⟨id, entry⟩ := found
    by_cases hargs : args.length = entry.params
    · have hstart : m.Starts name args s (entry.address, ⟨s.host, args.toArray, #[.ofEntry entry none 0]⟩) :=
        ⟨id, entry, hfind, hargs, rfl⟩
      have hleaves := leavesWithin hforward (m.maxCallDepth - 1) 1 (by omega) entry.address _ #[] _
        (wellFramed_of_starts hstart) rfl rfl
      obtain ⟨n, hn, ⟨pc', s', haddress, -⟩ | ⟨r, hrun⟩⟩ := hleaves
      · cases haddress
      · have hmax : max 1 m.maxCallDepth = m.maxCallDepth - 1 + 1 := by omega
        obtain ⟨k, hk⟩ := Nat.exists_eq_add_of_lt (Nat.lt_of_le_of_lt hn (mul_pow_lt _ _))
        rw [hmax, hk, Nat.add_comm n k]
        simp only [call, hfind, if_neg (not_not_intro hargs), hrun k]
        split
        · exact ⟨_, rfl⟩
        · exact ⟨_, rfl⟩
    · simp only [call, hfind, ne_eq, hargs, not_false_eq_true, if_true, Option.some.injEq, exists_eq']

end Machine

/-- Every call on a machine with a compiled program ends, and the size of the code and the limit on nested calls tell
after how many steps at the latest, whatever the arguments are and whatever the host does. -/
theorem Program.call_terminates {p : Program} {env : Environment} {image : Image} (h : p.compile env = .ok image)
    {η : Type} [Host η] (limit : Nat) (name : String) (args : List Word) (s : State η) :
    ∃ n ≤ (image.code.size + 1) ^ max 1 limit, ∃ r, ∀ steps,
      (Machine.mk image limit).call steps name args s = if steps < n then none else some r := by
  have hforward := Program.forward_of_compile h
  obtain ⟨r, hr⟩ := Machine.call_eq_some (m := ⟨image, limit⟩) hforward name args s
  obtain ⟨n, hn⟩ := Machine.ends_of_call hr
  refine ⟨n, Nat.le_of_not_lt fun hlt => ?_, r, hn⟩
  rw [hn, if_pos hlt] at hr
  cases hr

/-- Two functions that call each other, one of them twice, and never come to an end by themselves. -/
def endless : Program := [
  ⟨"Ping", ["n"], [], [.ret (some (.call "Pong" [.binary .add (.var "n") (.num 1)]))], .func⟩,
  ⟨"Pong", ["n"], [], [.ret (some (.binary .add (.call "Ping" [.var "n"]) (.call "Ping" [.var "n"])))], .func⟩]

def endlessImage : Image :=
  ⟨#[.load (.arg 0), .push 1, .arith .add, .call 1 1, .retValue,
    .load (.arg 0), .call 0 1, .load (.arg 0), .call 0 1, .arith .add, .retValue],
    #[⟨"Ping", 1, 0, .func, 0⟩, ⟨"Pong", 1, 0, .func, 5⟩]⟩

theorem endless_call_terminates : endless.compile notes = .ok endlessImage ∧
    ∃ n ≤ 12 ^ 20, ∃ r, ∀ steps, (Machine.mk endlessImage 20).call steps "Ping" [0] ⟨noting, #[], #[]⟩ =
      if steps < n then none else some r := by
  have hc : endless.compile notes = .ok endlessImage := rfl
  exact ⟨hc, Program.call_terminates hc 20 "Ping" [0] ⟨noting, #[], #[]⟩⟩

end Wordlang
