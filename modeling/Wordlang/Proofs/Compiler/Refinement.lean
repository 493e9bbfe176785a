import Wordlang.Proofs.Compiler.Simulation

/-!
# A compiled program does what the program means

A call on a machine comes to an end, and it ends as the evaluation of the tree does: with the same result or
the same fault, the same globals, and after the same requests to the host.

Main statement: `Program.call_follows_eval`.
-/

namespace Wordlang

/-! ## Runs that end -/

namespace Machine

variable {η : Type} [Host η] {m : Machine}

/-- The call ends with `r` when it has had enough steps, and is cut off before. -/
def Ends (m : Machine) (name : String) (args : List Word) (s : State η)
    (r : Except Fault (Option Word) × State η) : Prop :=
  ∃ bound, ∀ steps, m.call steps name args s = if steps < bound then none else some r

theorem run_ends {r : Except Fault (Option Word) × State η} : ∀ {n pc : Nat} {s : State η},
    m.run n pc s = some r → ∃ bound, ∀ steps, m.run steps pc s = if steps < bound then none else some r
  | 0, _, _, h => by cases h
  | n + 1, pc, s, h => by
    simp only [run] at h
    split at h
    · rename_i pc' s' hstep
      obtain ⟨bound, hb⟩ := run_ends h
      refine ⟨bound + 1, fun steps => ?_⟩
      cases steps with
      | zero => simp [run]
      | succ steps => simp [run, hstep, hb]
    · rename_i result s' hstep
      refine ⟨1, fun steps => ?_⟩
      cases steps with
      | zero => simp [run]
      | succ steps => simpa [run, hstep] using h

/-- One run that is not cut off tells how the call ends. -/
theorem ends_of_call {n : Nat} {name : String} {args : List Word} {s : State η}
    {r : Except Fault (Option Word) × State η} (h : m.call n name args s = some r) : m.Ends name args s r := by
  unfold call at h
  split at h
  · rename_i hfind
    exact ⟨0, fun steps => by simp [call, hfind, h]⟩
  · rename_i id entry hfind
    split at h
    · rename_i hargs
      exact ⟨0, fun steps => by simp [call, hfind, hargs, h]⟩
    · rename_i hargs
      cases hrun : m.run n entry.address ⟨s.host, args.toArray, #[.ofEntry entry none 0]⟩ with
      | none => simp [hrun] at h
      | some r' =>
        obtain ⟨bound, hb⟩ := run_ends hrun
        refine ⟨bound, fun steps => ?_⟩
        simp only [hrun] at h
        simp only [call, hfind, if_neg hargs, hb]
        by_cases hlt : steps < bound
        · simp only [if_pos hlt]
        · simp only [if_neg hlt, h]

end Machine

/-! ## Calls -/

variable {η : Type}

/-- The end of a call is the one that an evaluation tells. Faults agree up to the address. -/
def Follows (r : Except Fault (Option Word) × State η) : EStateM.Result Fault η (Option Word) → Prop
  | .ok value host => r.1 = .ok value ∧ r.2.host = host
  | .error fault host => (∃ fault', r.1 = .error fault' ∧ fault'.unplaced = fault.unplaced) ∧ r.2.host = host

/-- A call of a function that the program has, with the right number of arguments. -/
theorem Program.Linked.call_function [Host η] {p : Program} {env : Environment} {m : Machine} {name : String}
    {f : Function} {args : List Word} (hl : p.Linked env m.image) (hf : p.find? (·.name == name) = some f)
    (hargs : args.length = f.params.length) (s : State η) :
    ∃ r, m.Ends name args s r ∧
      Follows r (Eval.function p env m.maxCallDepth (m.maxCallDepth - 1) f args s.host) := by
  obtain ⟨id, address, body, hfind, hp, hb, hm⟩ := hl.find?_some hf
  have hsim := Simulates.function (η := η) hl (m.maxCallDepth - 1) (c := ⟨[], [], none⟩)
    (List.mem_of_getElem? hp) hargs rfl hb hm s.host
  have hstart : ∀ n, ((Activation.start f args).landing ⟨[], [], none⟩ address []).resume m s.host n =
      m.run n address ⟨s.host, args.toArray, #[.ofEntry (Emit.entry f address) none 0]⟩ := by
    intro n
    simp only [Landing.resume, Landing.state, Activation.landing, Activation.frame_start _ address hargs,
      Activation.args_start hargs, List.nil_append, List.append_nil, List.length_nil]
  have hcount : ¬ args.length ≠ (Emit.entry f address).params := not_not_intro hargs
  have haddress : (Emit.entry f address).address = address := rfl
  split at hsim
  · rename_i value host' hv
    obtain ⟨n, hn⟩ := hsim
    have hrun := hn 0
    rw [hstart] at hrun
    refine ⟨(.ok value, ⟨host', #[], #[]⟩), Machine.ends_of_call (n := 0 + n) ?_, ?_⟩
    · simp only [Machine.call, hfind, if_neg hcount, haddress, hrun]
      rfl
    · rw [hv]
      exact ⟨rfl, rfl⟩
  · rename_i fault host' hv
    obtain ⟨n, fault', s', hfault, hs, hn⟩ := hsim
    have hrun := hn 0
    rw [hstart] at hrun
    refine ⟨(.error fault', ⟨s'.host, #[], #[]⟩), Machine.ends_of_call (n := 0 + n) ?_, ?_⟩
    · simp only [Machine.call, hfind, if_neg hcount, haddress, hrun]
    · rw [hv]
      exact ⟨⟨fault', rfl, hfault⟩, hs⟩

/-! ## Recorded requests -/

/-- A host with a record of the external functions that it was asked to run, the last request last. -/
structure Recorded (η : Type) where
  host : η
  calls : List (Nat × List Word) := []

instance [Host η] : Host (Recorded η) where
  callExternal r id args :=
    let (value, host) := Host.callExternal r.host id args
    (value, ⟨host, r.calls ++ [(id, args)]⟩)
  loadGlobal r id :=
    let (value, host) := Host.loadGlobal r.host id
    (value, { r with host })
  storeGlobal r id value :=
    let (done, host) := Host.storeGlobal r.host id value
    (done, { r with host })

/-- A call on a machine with the compiled program ends as the evaluation of the program does. Bindings and
record are compared as a whole: the globals, the world that external functions have changed, and all
requests in their order. -/
theorem Program.call_follows_eval {p : Program} {env : Environment} {image : Image}
    (h : p.compile env = .ok image) {σ : Type} (limit : Nat) (name : String) (args : List Word)
    (s : State (Recorded (Bindings σ))) :
    ∃ r, (Machine.mk image limit).Ends name args s r ∧ Follows r (p.eval env limit name args s.host) := by
  have hl := Program.Linked.of_compile h
  unfold Program.eval
  cases hf : p.find? (·.name == name) with
  | none =>
    refine ⟨(.error (.unknownFunction name), s), Machine.ends_of_call (n := 0) ?_, ⟨_, rfl, rfl⟩, rfl⟩
    simp only [Machine.call, hl.find?_none hf]
  | some f =>
    by_cases hargs : args.length = f.params.length
    · simp only [if_neg (not_not_intro hargs)]
      exact Program.Linked.call_function (m := ⟨image, limit⟩) hl hf hargs s
    · obtain ⟨id, address, body, hfind, -, -, -⟩ := hl.find?_some hf
      simp only [if_pos hargs]
      refine ⟨(.error (.wrongArgumentCount name f.params.length args.length), s),
        Machine.ends_of_call (n := 0) ?_, ⟨_, rfl, rfl⟩, rfl⟩
      simp only [Machine.call, hfind]
      exact if_pos hargs

/-- A host that takes notes and counts them. -/
def notes : Environment := ⟨[⟨"note", 1, .proc⟩], ["count"]⟩

def noting : Bindings (List Word) := ⟨[("note", some fun xs world => (0, world ++ xs))], [("count", 7)], []⟩

/-- Notes and counts what it divides. -/
def share : Program := [⟨"Share", ["total", "n"], [],
  [.expr (.call "note" [.var "total"]),
    .set "count" (.binary .add (.var "count") (.num 1)),
    .ret (some (.binary .div (.var "total") (.var "n")))], .func⟩]

def shareImage : Image :=
  ⟨#[.load (.arg 0), .callExternal 0 1 .proc,
    .load (.global 0), .push 1, .arith .add, .store (.global 0),
    .load (.arg 0), .load (.arg 1), .arith .div, .retValue],
    #[⟨"Share", 2, 0, .func, 0⟩]⟩

/-- The host behind a division of a word. -/
def noted (total : Word) : Recorded (Bindings (List Word)) :=
  ⟨{ noting with globals := [("count", 8)], world := [total] }, [(0, [total])]⟩

/-- The evaluation of a division ends so, and the call does. -/
def Shares (args : List Word) (result : EStateM.Result Fault (Recorded (Bindings (List Word))) (Option Word)) :
    Prop :=
  share.eval notes 8 "Share" args ⟨noting, []⟩ = result ∧
  ∃ r, (Machine.mk shareImage 8).Ends "Share" args ⟨⟨noting, []⟩, #[], #[]⟩ r ∧ Follows r result

theorem share_follows_eval : share.compile notes = .ok shareImage ∧
    Shares [-7, 2] (.ok (some (-3)) (noted (-7))) ∧
    Shares [7, 0] (.error (.divisionByZero 0) (noted 7)) ∧
    Shares [Int64.minValue, -1] (.error (.overflow 0) (noted Int64.minValue)) := by
  have hc : share.compile notes = .ok shareImage := rfl
  have shares {args : List Word} {result} (h : share.eval notes 8 "Share" args ⟨noting, []⟩ = result) :
      Shares args result :=
    ⟨h, h ▸ Program.call_follows_eval hc 8 "Share" args ⟨⟨noting, []⟩, #[], #[]⟩⟩
  exact ⟨hc, shares rfl, shares rfl, shares rfl⟩

/-- Notes each factor before it multiplies. -/
def factorial : Program := [⟨"Fact", ["n"], [],
  [.ifThen (.binary .less (.var "n") (.num 1)) [.ret (some (.num 1))],
    .expr (.call "note" [.var "n"]),
    .set "count" (.binary .add (.var "count") (.num 1)),
    .ret (some (.binary .mul (.var "n") (.call "Fact" [.binary .sub (.var "n") (.num 1)])))], .func⟩]

def factorialImage : Image :=
  ⟨#[.load (.arg 0), .push 1, .arith .less, .jumpIfZero 6, .push 1, .retValue,
    .load (.arg 0), .callExternal 0 1 .proc,
    .load (.global 0), .push 1, .arith .add, .store (.global 0),
    .load (.arg 0), .load (.arg 0), .push 1, .arith .sub, .call 0 1, .arith .mul, .retValue],
    #[⟨"Fact", 1, 0, .func, 0⟩]⟩

end Wordlang
