import Wordlang.Proofs.Compiler.Output
import Wordlang.Proofs.Compiler.Returns
import Wordlang.Proofs.Machine.Frames

/-!
# The return behind a body

A body that does not end with a return statement has a return behind it, also where all of its paths have returned
before. There the jumps at the ends of conditionals do lead to that return, but they are never carried out themselves:
the addresses that control can pass to from the start of the code do not include them.

Main statement: `Program.terminator_is_dead`.
-/

namespace Wordlang

/-- Whether control can pass from the instruction to the one behind it. -/
def Instruction.passes : Instruction → Bool
  | .jump _ | .ret | .retValue => false
  | _ => true

/-- Inside an activation, control can pass from the instruction at `pc` to `next`. A call passes to the address at
which its function returns. -/
def Instruction.Leads (i : Instruction) (pc next : Nat) : Prop :=
  i.target? = some next ∨ i.passes = true ∧ next = pc + 1

namespace Emit

/-! ## Live addresses -/

/-- In code that starts at `start` control starts at a live address and passes only to live addresses. -/
structure Sealed (start : Nat) (code : List Instruction) (live : Nat → Prop) : Prop where
  first : live start
  within : ∀ pc, live pc → start ≤ pc ∧ pc < start + code.length
  closed : ∀ (i : Nat) (instruction : Instruction) (next : Nat), code[i]? = some instruction → live (start + i) →
    instruction.Leads (start + i) next → live next

/-- Control leaves code whose jumps lead forward only at its end. -/
theorem JumpsWithin.leads {start i next : Nat} {code : List Instruction} {instruction : Instruction}
    (h : JumpsWithin start (start + code.length) code) (hi : code[i]? = some instruction)
    (hleads : instruction.Leads (start + i) next) : start < next ∧ next ≤ start + code.length := by
  have hlt := (List.getElem?_eq_some_iff.1 hi).1
  rcases hleads with htarget | ⟨-, rfl⟩
  · have := h i instruction hi next htarget
    omega
  · omega

namespace Sealed

variable {start : Nat} {code code' : List Instruction} {live live' : Nat → Prop} {instruction : Instruction}

/-- A single instruction that ends the activation. -/
theorem leaf (h : ∀ next, ¬ instruction.Leads start next) : Sealed start [instruction] (· = start) := by
  refine ⟨rfl, fun pc hpc => ?_, fun i instruction' next hi hlive hleads => ?_⟩
  · simp only [hpc, List.length_singleton]
    omega
  · cases (by omega : i = 0)
    cases (by simpa using hi : instruction = instruction')
    exact absurd hleads (h next)

/-- What stands behind sealed code does not matter. -/
theorem append (h : Sealed start code live) (code' : List Instruction) : Sealed start (code ++ code') live := by
  refine ⟨h.first, fun pc hpc => ?_, fun i instruction next hi hlive hleads => ?_⟩
  · have := h.within pc hpc
    rw [List.length_append]
    omega
  · have hlt : i < code.length := by
      have := h.within _ hlive
      omega
    rw [List.getElem?_append_left hlt] at hi
    exact h.closed i instruction next hi hlive hleads

/-- Code in front that control leaves only at its end. -/
theorem prepend (hjumps : JumpsWithin start (start + code.length) code)
    (h : Sealed (start + code.length) code' live) :
    Sealed start (code ++ code') fun pc => start ≤ pc ∧ pc < start + code.length ∨ live pc := by
  refine ⟨?_, fun pc hpc => ?_, fun i instruction next hi hlive hleads => ?_⟩
  · by_cases hnil : code.length = 0
    · have hfirst := h.first
      rw [hnil, Nat.add_zero] at hfirst
      exact .inr hfirst
    · exact .inl (by omega)
  · rw [List.length_append]
    rcases hpc with hpc | hpc
    · omega
    · have := h.within pc hpc
      omega
  · by_cases hlt : i < code.length
    · rw [List.getElem?_append_left hlt] at hi
      have hnext := hjumps.leads hi hleads
      by_cases hend : next = start + code.length
      · exact .inr (hend ▸ h.first)
      · exact .inl (by omega)
    · rw [List.getElem?_append_right (by omega)] at hi
      have haddress : start + code.length + (i - code.length) = start + i := by omega
      rcases hlive with hlive | hlive
      · omega
      · refine .inr (h.closed (i - code.length) instruction next hi ?_ ?_)
        · rwa [haddress]
        · rwa [haddress]

/-- A conditional jump over sealed code to sealed code. The instruction between the two is not live. -/
theorem branch {between : Instruction} {target : Nat} (h : Sealed (start + 1) code live)
    (h' : Sealed target code' live') (htarget : target = start + code.length + 2) :
    Sealed start (.jumpIfZero target :: (code ++ between :: code')) fun pc => pc = start ∨ live pc ∨ live' pc := by
  refine ⟨.inl rfl, fun pc hpc => ?_, fun i instruction next hi hlive hleads => ?_⟩
  · simp only [List.length_cons, List.length_append]
    rcases hpc with rfl | hpc | hpc
    · omega
    · have := h.within pc hpc
      omega
    · have := h'.within pc hpc
      omega
  · rcases hlive with hlive | hlive | hlive
    · cases (by omega : i = 0)
      cases (by simpa using hi : Instruction.jumpIfZero target = instruction)
      rcases hleads with hjump | ⟨-, rfl⟩
      · cases hjump
        exact .inr (.inr h'.first)
      · exact .inr (.inl h.first)
    · have hwithin := h.within _ hlive
      obtain ⟨j, rfl⟩ : ∃ j, i = j + 1 := ⟨i - 1, by omega⟩
      have haddress : start + (j + 1) = start + 1 + j := by omega
      rw [haddress] at hlive hleads
      rw [List.getElem?_cons_succ, List.getElem?_append_left (by omega)] at hi
      exact .inr (.inl (h.closed j instruction next hi hlive hleads))
    · have hwithin := h'.within _ hlive
      obtain ⟨j, rfl⟩ : ∃ j, i = code.length + (j + 1) + 1 := ⟨i - (code.length + 2), by omega⟩
      have haddress : start + (code.length + (j + 1) + 1) = target + j := by omega
      rw [haddress] at hlive hleads
      rw [List.getElem?_cons_succ, List.getElem?_append_right (Nat.le_add_right _ _), Nat.add_sub_cancel_left,
        List.getElem?_cons_succ] at hi
      exact .inr (.inr (h'.closed j instruction next hi hlive hleads))

end Sealed

theorem not_leads_ret (pc next : Nat) : ¬ Instruction.ret.Leads pc next := by
  rintro (h | ⟨h, -⟩) <;> cases h

theorem not_leads_retValue (pc next : Nat) : ¬ Instruction.retValue.Leads pc next := by
  rintro (h | ⟨h, -⟩) <;> cases h

variable {kind : FunctionKind} {s : Scope}

mutual

/-- Control does not leave the code of a statement that always returns. -/
theorem statement_sealed {stmt : Stmt} {start : Nat} {code : List Instruction} (hreturns : stmt.returns kind = .ok true)
    (h : statement s start stmt = .ok code) : ∃ live, Sealed start code live := by
  match stmt with
  | .expr e => cases hreturns
  | .set target e => cases hreturns
  | .ret none =>
    cases h
    exact ⟨_, .leaf (not_leads_ret _)⟩
  | .ret (some e) =>
    simp only [statement] at h
    obtain ⟨a, ha, h⟩ := parts_ok h
    cases h
    exact ⟨_, .prepend (value_jumps ha (Nat.le_refl _)) (.leaf (not_leads_retValue _))⟩
  | .ifThen test body =>
    -- It falls through where the condition is zero, so the verifier never takes it for a return.
    obtain ⟨_, -, hreturns⟩ := parts_ok hreturns
    cases hreturns
  | .ifElse test yes no =>
    obtain ⟨b₁, hyes, hreturns⟩ := parts_ok hreturns
    obtain ⟨b₂, hno, hreturns⟩ := parts_ok hreturns
    obtain ⟨rfl, rfl⟩ : b₁ = true ∧ b₂ = true := by
      cases b₁ <;> cases b₂ <;> first | exact ⟨rfl, rfl⟩ | cases hreturns
    simp only [statement] at h
    obtain ⟨a, ha, h⟩ := parts_ok h
    obtain ⟨b, hb, h⟩ := parts_ok h
    obtain ⟨c, hc, h⟩ := parts_ok h
    cases h
    obtain ⟨live, hlive⟩ := block_sealed hyes hb
    obtain ⟨live', hlive'⟩ := block_sealed hno hc
    simp only [List.append_assoc, List.singleton_append]
    exact ⟨_, .prepend (value_jumps ha (Nat.le_refl _)) (.branch hlive hlive' rfl)⟩

theorem block_sealed {body : List Stmt} {start : Nat} {code : List Instruction}
    (hreturns : Stmt.blockReturns kind body = .ok true) (h : block s start body = .ok code) :
    ∃ live, Sealed start code live := by
  match body with
  | [] => cases hreturns
  | stmt :: rest =>
    obtain ⟨b, hstmt, hreturns⟩ := parts_ok hreturns
    simp only [block] at h
    obtain ⟨a, ha, h⟩ := parts_ok h
    obtain ⟨c, hc, h⟩ := parts_ok h
    cases h
    cases b with
    | true =>
      -- The code of the rest is there all the same, and none of it is live.
      obtain ⟨live, hlive⟩ := statement_sealed hstmt ha
      exact ⟨live, hlive.append c⟩
    | false =>
      obtain ⟨live, hlive⟩ := block_sealed hreturns hc
      exact ⟨_, .prepend (statement_jumps ha (Nat.le_refl _)) hlive⟩

end

/-- Control does not leave the code of a function, and where the body always returns it stays in the body. -/
theorem function_sealed {p : Program} {env : Environment} {f : Function} {start : Nat} {code : List Instruction}
    (hf : f.WellFormed) (h : function (Signatures.listing 0 p) env start f = .ok code) :
    ∃ live, Sealed start code live ∧ (Stmt.blockReturns f.kind f.body = .ok true →
      ∃ body, code = body ++ terminator f ∧ ∀ pc, live pc → pc < start + body.length) := by
  by_cases hreturns : Stmt.blockReturns f.kind f.body = .ok true
  · obtain ⟨body, hb, h⟩ := parts_ok (ok_of_inFunction h)
    cases h
    obtain ⟨live, hlive⟩ := block_sealed hreturns hb
    exact ⟨live, hlive.append _, fun _ => ⟨body, rfl, fun pc hpc => (hlive.within pc hpc).2⟩⟩
  -- Otherwise the last instruction is live, but no address behind it.
  · obtain ⟨init, rfl, hjumps⟩ := function_ends hf h
    have hleaf : ∀ next, ¬ f.kind.leaving.Leads (start + init.length) next := by
      cases f.kind with
      | func => exact not_leads_retValue _
      | proc => exact not_leads_ret _
    exact ⟨_, .prepend hjumps (.leaf hleaf), fun h => absurd h hreturns⟩

/-! ## Where values are returned -/

theorem Computes.ne_retValue {i : Instruction} (h : Computes s i) : i ≠ .retValue := by
  cases h <;> exact nofun

/-- The code of an expression has no return. -/
theorem value_ne_retValue {e : Expr} {start : Nat} {code : List Instruction} (h : value s start e = .ok code) :
    ∀ i ∈ code, i ≠ .retValue :=
  fun i hi => (value_computes h i hi).ne_retValue

/-- A value is returned only by return statements of the block, each behind the code of its expression. -/
def ReturnSites (s : Scope) (start : Nat) (body : List Stmt) (code : List Instruction) : Prop :=
  ∀ offset, code[offset]? = some .retValue →
    ∃ (pos : Position) (e : Expr) (before value after : List Instruction), pos.find? body = some (.ret (some e)) ∧
      Emit.value s (start + before.length) e = .ok value ∧ code = before ++ (value ++ .retValue :: after) ∧
      offset = before.length + value.length

namespace ReturnSites

variable {start : Nat} {body body' : List Stmt} {code code' : List Instruction}

theorem plain (h : ∀ i ∈ code, i ≠ .retValue) : ReturnSites s start body code :=
  fun _ hi => absurd rfl (h _ (List.mem_of_getElem? hi))

theorem append (h : ReturnSites s start body code) (h' : ReturnSites s (start + code.length) body code') :
    ReturnSites s start body (code ++ code') := by
  intro offset hi
  by_cases hlt : offset < code.length
  · rw [List.getElem?_append_left hlt] at hi
    obtain ⟨pos, e, before, value, after, hpos, hvalue, rfl, rfl⟩ := h offset hi
    exact ⟨pos, e, before, value, after ++ code', hpos, hvalue, by simp, rfl⟩
  · rw [List.getElem?_append_right (by omega)] at hi
    obtain ⟨pos, e, before, value, after, hpos, hvalue, rfl, hoffset⟩ := h' _ hi
    refine ⟨pos, e, code ++ before, value, after, hpos, ?_, by simp, ?_⟩
    · rwa [List.length_append, ← Nat.add_assoc]
    · rw [List.length_append]
      omega

/-- The same for a block that has all statements of this one, at any depth. -/
theorem mono (h : ReturnSites s start body code)
    (hbody : ∀ pos st, Position.find? pos body = some st → ∃ pos', Position.find? pos' body' = some st) :
    ReturnSites s start body' code := by
  intro offset hi
  obtain ⟨pos, e, before, value, after, hpos, hrest⟩ := h offset hi
  obtain ⟨pos', hpos'⟩ := hbody pos _ hpos
  exact ⟨pos', e, before, value, after, hpos', hrest⟩

/-- The code of a return statement with its value. -/
theorem leaf {e : Expr} {value : List Instruction} (h : Emit.value s start e = .ok value) :
    ReturnSites s start [.ret (some e)] (value ++ [.retValue]) := by
  intro offset hi
  refine ⟨.here, e, [], value, [], rfl, h, rfl, ?_⟩
  by_cases hlt : offset < value.length
  · rw [List.getElem?_append_left hlt] at hi
    exact absurd rfl (value_ne_retValue h _ (List.mem_of_getElem? hi))
  · have := (List.getElem?_eq_some_iff.1 hi).1
    simp only [List.length_append, List.length_cons, List.length_nil] at *
    omega

end ReturnSites

theorem statement_expr_ne_retValue {e : Expr} {start : Nat} {code : List Instruction}
    (h : statement s start (.expr e) = .ok code) : ∀ i ∈ code, i ≠ .retValue := by
  intro i hi
  rcases statement_expr_computes h i hi with hcomputes | rfl
  · exact hcomputes.ne_retValue
  · exact nofun

mutual

theorem statement_returnSites {stmt : Stmt} {start : Nat} {code : List Instruction}
    (h : statement s start stmt = .ok code) : ReturnSites s start [stmt] code := by
  match stmt with
  | .expr e => exact .plain (statement_expr_ne_retValue h)
  | .set target e =>
    simp only [statement] at h
    obtain ⟨a, ha, h⟩ := parts_ok h
    obtain ⟨slot, -, h⟩ := parts_ok h
    cases h
    exact .append (.plain (value_ne_retValue ha)) (.plain (by simp))
  | .ret none =>
    cases h
    exact .plain (by simp)
  | .ret (some e) =>
    simp only [statement] at h
    obtain ⟨a, ha, h⟩ := parts_ok h
    cases h
    exact .leaf ha
  | .ifThen test body =>
    simp only [statement] at h
    obtain ⟨a, ha, h⟩ := parts_ok h
    obtain ⟨b, hb, h⟩ := parts_ok h
    cases h
    refine .append (.append (.plain (value_ne_retValue ha)) (.plain (by simp))) ?_
    rw [List.length_append, List.length_singleton, ← Nat.add_assoc]
    exact (block_returnSites hb).mono fun pos st hpos => ⟨.inside true pos, hpos⟩
  | .ifElse test yes no =>
    simp only [statement] at h
    obtain ⟨a, ha, h⟩ := parts_ok h
    obtain ⟨b, hb, h⟩ := parts_ok h
    obtain ⟨c, hc, h⟩ := parts_ok h
    cases h
    have hyes : ReturnSites s (start + a.length + 1) [.ifElse test yes no] b :=
      (block_returnSites hb).mono fun pos st hpos => ⟨.inside true pos, hpos⟩
    have hno : ReturnSites s (start + a.length + b.length + 2) [.ifElse test yes no] c :=
      (block_returnSites hc).mono fun pos st hpos => ⟨.inside false pos, hpos⟩
    refine .append (.append (.append (.append (.plain (value_ne_retValue ha)) ?_) ?_) ?_) ?_
    · exact .plain (by simp)
    · rwa [List.length_append, List.length_singleton, ← Nat.add_assoc]
    · exact .plain (by simp)
    · have hlength : start + (a ++ [Instruction.jumpIfZero (start + a.length + b.length + 2)] ++ b ++
          [Instruction.jump (start + a.length + b.length + 2 + c.length)]).length
            = start + a.length + b.length + 2 := by
        simp only [List.length_append, List.length_singleton]
        omega
      rwa [hlength]

theorem block_returnSites {body : List Stmt} {start : Nat} {code : List Instruction}
    (h : block s start body = .ok code) : ReturnSites s start body code := by
  match body with
  | [] =>
    cases h
    exact .plain (by simp)
  | stmt :: rest =>
    simp only [block] at h
    obtain ⟨a, ha, h⟩ := parts_ok h
    obtain ⟨b, hb, h⟩ := parts_ok h
    cases h
    refine .append ((statement_returnSites ha).mono fun pos st hpos => ?_)
      ((block_returnSites hb).mono fun pos st hpos => ?_)
    · cases pos with
      | here => exact ⟨.here, hpos⟩
      | inside b inner => exact ⟨.inside b inner, hpos⟩
      | behind rest => simp [Position.find?] at hpos
    · exact ⟨.behind pos, hpos⟩

end

end Emit

/-! ## Runs -/

/-- The functions of the image start at live addresses, and control passes from those only to live addresses. -/
structure Image.Sealed (image : Image) (live : Nat → Prop) : Prop where
  entries : ∀ (id : Nat) (entry : Entry), image.entries[id]? = some entry → live entry.address
  closed : ∀ (pc : Nat) (i : Instruction) (next : Nat),
    image.code[pc]? = some i → live pc → i.Leads pc next → live next

namespace Machine

variable {η : Type} {m : Machine} {live : Nat → Prop} {x y : Nat × State η}

/-- The run is at a live address, and its callers go on at live addresses. -/
structure AtLive (live : Nat → Prop) (x : Nat × State η) : Prop where
  address : live x.1
  callers : ∀ frame ∈ x.2.frames, ∀ address ∈ frame.returnAddress, live address

theorem atLive_of_starts (hlive : m.image.Sealed live) {name : String} {args : List Word} {s : State η}
    (h : m.Starts name args s x) : AtLive live x := by
  obtain ⟨id, entry, hfind, -, rfl⟩ := h
  simp only [Image.find?, Option.bind_eq_bind, Option.bind_eq_some_iff] at hfind
  obtain ⟨id', -, entry', hentry, hfind⟩ := hfind
  cases hfind
  refine ⟨hlive.entries _ _ hentry, ?_⟩
  simp [Frame.ofEntry]

variable [Host η]

theorem exec_of_step {pc pc' : Nat} {s s' : State η} {i : Instruction} (hi : m.image.code[pc]? = some i)
    (h : m.step pc s = .next pc' s') : m.exec pc i s = .ok (.goto pc') s' := by
  simp only [step, hi] at h
  split at h
  · rename_i hexec
    cases h
    exact hexec
  · cases h
  · cases h

/-- A step inside an activation goes where its instruction leads. -/
theorem leads_of_stay {pc pc' : Nat} {s s' : State η} {lower : Array Frame} {frame : Frame} {i : Instruction}
    (hi : m.image.code[pc]? = some i) (hframes : s.frames = lower.push frame) (hfloor : frame.floor ≤ s.stack.size)
    (hstep : m.step pc s = .next pc' s') (hs : s'.Inside lower frame s.stack)
    (hpc : pc' = pc + 1 ∨ i.target? = some pc') : i.Leads pc pc' := by
  obtain ⟨locals, hframes'⟩ := hs.frames
  -- The frame is still there, so the step was no return.
  have hsame : s'.frames ≠ lower := by
    intro heq
    have := congrArg Array.size (hframes'.symm.trans heq)
    simp at this
  have hexec := exec_of_step hi hstep
  cases i with
  | jump target =>
    cases hexec
    exact .inl rfl
  | ret =>
    obtain ⟨-, rfl⟩ := returnFrom_ok hframes hexec
    exact absurd rfl hsame
  | retValue =>
    obtain ⟨v, s₁, h₁, hexec⟩ := EvalM.bind_eq_ok hexec
    have hinside : s.Inside lower frame s.stack := ⟨⟨frame.locals, hframes⟩, fun _ _ => rfl, hfloor⟩
    obtain ⟨-, rfl⟩ := hinside.of_operand h₁
    obtain ⟨-, rfl⟩ := returnFrom_ok (s := { s with stack := s.stack.pop }) hframes hexec
    exact absurd rfl hsame
  | _ =>
    rcases hpc with rfl | htarget
    · exact .inr ⟨rfl, rfl⟩
    · exact .inl htarget

theorem AtLive.goes (hlive : m.image.Sealed live) (hx : x.2.WellFramed m.maxCallDepth) (h : AtLive live x)
    (hgoes : m.Goes x y) : AtLive live y := by
  obtain ⟨pc, s⟩ := y
  obtain ⟨lower, frame, hframes, hfloor, hmove⟩ := exists_move hx hgoes
  have hcallers := h.callers
  rw [hframes] at hcallers
  cases hmove with
  | stay hi hpc hs =>
    have hleads := leads_of_stay hi hframes hfloor hgoes hs hpc
    obtain ⟨locals, hframes'⟩ := hs.frames
    refine ⟨hlive.closed _ _ _ hi h.address hleads, ?_⟩
    simp only [hframes', Array.mem_push] at hcallers ⊢
    rintro f (hf | rfl)
    · exact hcallers f (.inl hf)
    · exact hcallers frame (.inr rfl)
  | enter hi hentry hroom hargs =>
    refine ⟨hlive.entries _ _ hentry, ?_⟩
    simp only [Array.mem_push]
    rintro f (hf | rfl)
    · exact h.callers f hf
    · rintro address ⟨⟩
      exact hlive.closed _ _ _ hi h.address (.inr ⟨rfl, rfl⟩)
  | leave result haddress =>
    refine ⟨hcallers frame (by simp) pc haddress, fun f hf => hcallers f (by simp [hf])⟩

theorem AtLive.reaches (hlive : m.image.Sealed live) (hx : x.2.WellFramed m.maxCallDepth) (h : AtLive live x)
    (hreach : m.Reaches x y) : AtLive live y := by
  induction hreach with
  | refl => exact h
  | tail hfirst hstep ih => exact ih.goes hlive (wellFramed_of_reaches hx hfirst) hstep

end Machine

namespace Image.Assembled

open Emit

variable {p : Program} {env : Environment} {parts : List (List Instruction)} {image : Image} {id : Nat}
  {part : List Instruction} {pc : Nat} {i : Instruction}

theorem holds (h : image.Assembled p env parts) (hpart : parts[id]? = some part) :
    image.Holds (offset parts id) part := by
  obtain ⟨hlt, rfl⟩ := List.getElem?_eq_some_iff.1 hpart
  intro j i hj
  have hjlt := (List.getElem?_eq_some_iff.1 hj).1
  rw [h.code, List.getElem?_toArray, flatten_split parts id, offset, List.getElem?_append_right (Nat.le_add_right _ _),
    Nat.add_sub_cancel_left, List.drop_eq_getElem_cons hlt, List.flatten_cons, List.getElem?_append_left hjlt, hj]

/-- An instruction at an address in the code of a function is one of the function. -/
theorem getElem?_part (h : image.Assembled p env parts) (hpart : parts[id]? = some part)
    (hi : image.code[pc]? = some i) (hle : offset parts id ≤ pc) (hlt : pc < offset parts id + part.length) :
    part[pc - offset parts id]? = some i := by
  have hj : pc - offset parts id < part.length := by omega
  have hholds := h.holds hpart _ _ (List.getElem?_eq_getElem hj)
  rw [Nat.add_sub_cancel' hle, hi] at hholds
  rw [List.getElem?_eq_getElem hj, hholds]

/-- The code of the functions does not overlap. -/
theorem part_unique (h : image.Assembled p env parts) {id' : Nat} {part' : List Instruction}
    (hpart : parts[id]? = some part) (hpart' : parts[id']? = some part')
    (hpc : offset parts id ≤ pc ∧ pc < offset parts id + part.length)
    (hpc' : offset parts id' ≤ pc ∧ pc < offset parts id' + part'.length) : id = id' := by
  have hbefore : ∀ {a b : Nat} {code : List Instruction}, parts[a]? = some code → b < parts.length → a < b →
      offset parts a + code.length ≤ offset parts b := by
    intro a b code hcode hb hab
    rw [← offset_succ hcode]
    rcases Nat.lt_or_eq_of_le (Nat.succ_le_of_lt hab) with hlt | rfl
    · exact Nat.le_of_lt (offset_lt h.part_ne_nil hlt (Nat.le_of_lt hb))
    · exact Nat.le_refl _
  have hid := (List.getElem?_eq_some_iff.1 hpart).1
  have hid' := (List.getElem?_eq_some_iff.1 hpart').1
  rcases Nat.lt_trichotomy id id' with hlt | heq | hlt
  · have := hbefore hpart hid' hlt
    omega
  · exact heq
  · have := hbefore hpart' hid hlt
    omega

/-- The addresses that control can pass to lie in the code of the functions, and in that of the body if it always
returns. -/
theorem exists_live (h : image.Assembled p env parts) : ∃ live, image.Sealed live ∧
    ∀ pc, live pc → ∃ id f part, p[id]? = some f ∧ parts[id]? = some part ∧ offset parts id ≤ pc ∧
      pc < offset parts id + part.length ∧ (Stmt.blockReturns f.kind f.body = .ok true →
        ∃ body, part = body ++ terminator f ∧ pc < offset parts id + body.length) := by
  -- An address is live if it is so for the function in whose code it lies.
  refine ⟨fun pc => ∃ id f part live, p[id]? = some f ∧ parts[id]? = some part ∧ live pc ∧
    Emit.Sealed (offset parts id) part live ∧ (Stmt.blockReturns f.kind f.body = .ok true →
      ∃ body, part = body ++ terminator f ∧ ∀ pc, live pc → pc < offset parts id + body.length), ⟨?_, ?_⟩, ?_⟩
  · intro id entry hentry
    obtain ⟨f, part, hf, hpart, rfl⟩ := h.exists_function hentry
    have hwell := h.wellFormed.functions f (List.mem_of_getElem? hf)
    obtain ⟨live, hlive, hbody⟩ := function_sealed hwell (h.emitted id f part hf hpart)
    exact ⟨id, f, part, live, hf, hpart, hlive.first, hlive, hbody⟩
  · rintro pc i next hi ⟨id, f, part, live, hf, hpart, hpc, hlive, hbody⟩ hleads
    obtain ⟨hle, hlt⟩ := hlive.within pc hpc
    rw [← Nat.add_sub_cancel' hle] at hpc hleads
    have hnext := hlive.closed _ i next (h.getElem?_part hpart hi hle hlt) hpc hleads
    exact ⟨id, f, part, live, hf, hpart, hnext, hlive, hbody⟩
  · rintro pc ⟨id, f, part, live, hf, hpart, hpc, hlive, hbody⟩
    obtain ⟨hle, hlt⟩ := hlive.within pc hpc
    refine ⟨id, f, part, hf, hpart, hle, hlt, fun hreturns => ?_⟩
    obtain ⟨body, hpart, hdead⟩ := hbody hreturns
    exact ⟨body, hpart, hdead pc hpc⟩

end Image.Assembled

/-! ## Programs -/

theorem Function.WellFormed.blockReturns {f : Function} (hf : f.WellFormed) (hk : f.kind = .func) :
    Stmt.blockReturns f.kind f.body = .ok true := by
  obtain ⟨⟨⟩, hv⟩ := Function.verify_succeeds_iff.2 hf
  obtain ⟨returns, hb, hreturns⟩ := Eval.returns_of_verify hv
  rw [hb, hreturns hk]

/-- The instruction at the address is that of a return statement, behind the code of the expression of the statement. -/
def Image.ReturnsAt (image : Image) (p : Program) (env : Environment) (pc : Nat) : Prop :=
  ∃ f ∈ p, ∃ (pos : Position) (e : Expr) (address : Nat) (code : List Instruction),
    pos.find? f.body = some (.ret (some e)) ∧ Emit.value ⟨f, Signatures.listing 0 p, env⟩ address e = .ok code ∧
    image.Holds address (code ++ [.retValue]) ∧ pc = address + code.length

/-- The code of a function is that of its body and what stands behind it. -/
theorem Emit.function_eq_append {table : Signatures} {env : Environment} {f : Function} {start : Nat}
    {code : List Instruction} (h : Emit.function table env start f = .ok code) :
    ∃ body, Emit.block ⟨f, table, env⟩ start f.body = .ok body ∧ code = body ++ Emit.terminator f := by
  obtain ⟨body, hb, h⟩ := parts_ok (ok_of_inFunction h)
  cases h
  exact ⟨body, hb, rfl⟩

/-- A value is returned from behind a body only in a `func`. -/
theorem Emit.kind_of_retValue_mem {f : Function} (h : .retValue ∈ Emit.terminator f) : f.kind = .func := by
  unfold Emit.terminator at h
  split at h
  · simp at h
  · assumption
  · simp at h

namespace Image.Assembled

open Emit

variable {p : Program} {env : Environment} {parts : List (List Instruction)} {image : Image} {id : Nat} {f : Function}
  {part : List Instruction} {pc : Nat}

/-- A return of a value that control passes to is that of a return statement. -/
theorem returnsAt (h : image.Assembled p env parts) (hf : p[id]? = some f) (hpart : parts[id]? = some part)
    (hi : image.code[pc]? = some .retValue) (hle : offset parts id ≤ pc) (hlt : pc < offset parts id + part.length)
    (hbody : Stmt.blockReturns f.kind f.body = .ok true →
      ∃ body, part = body ++ terminator f ∧ pc < offset parts id + body.length) : image.ReturnsAt p env pc := by
  have hmem := List.mem_of_getElem? hf
  obtain ⟨body, hb, rfl⟩ := function_eq_append (h.emitted id f part hf hpart)
  have hi' := h.getElem?_part hpart hi hle hlt
  have hinside : pc - offset parts id < body.length := by
    refine Nat.lt_of_not_le fun hbehind => ?_
    rw [List.getElem?_append_right hbehind] at hi'
    have hkind := kind_of_retValue_mem (List.mem_of_getElem? hi')
    obtain ⟨body', heq, hlt'⟩ := hbody ((h.wellFormed.functions f hmem).blockReturns hkind)
    cases List.append_cancel_right heq
    omega
  rw [List.getElem?_append_left hinside] at hi'
  obtain ⟨pos, e, before, value, after, hpos, hvalue, rfl, hoffset⟩ := block_returnSites hb _ hi'
  refine ⟨f, hmem, pos, e, offset parts id + before.length, value, hpos, hvalue, ?_, by omega⟩
  have hholds := (h.holds hpart).left.right
  rw [List.append_cons] at hholds
  exact hholds.left

end Image.Assembled

/-- No run of a compiled program comes to the return behind a body that always returns, as that of every `func` does. So
a value is returned only by a return statement. -/
theorem Program.terminator_is_dead {p : Program} {env : Environment} {image : Image} (h : p.compile env = .ok image)
    {η : Type} [Host η] {limit : Nat} {name : String} {args : List Word} {s : State η} {x y : Nat × State η}
    (hstart : (Machine.mk image limit).Starts name args s x) (hreach : (Machine.mk image limit).Reaches x y) :
    (∀ id f entry code, p[id]? = some f → image.entries[id]? = some entry → image.functionCode? id = some code →
      f.kind = .func ∨ Stmt.blockReturns f.kind f.body = .ok true →
      ∃ body, code = body ++ Emit.terminator f ∧
        ¬ (entry.address + body.length ≤ y.1 ∧ y.1 < entry.address + code.length)) ∧
    (image.code[y.1]? = some .retValue → image.ReturnsAt p env y.1) := by
  obtain ⟨parts, ha⟩ := Image.Assembled.of_compile h
  obtain ⟨live, hsealed, hlive⟩ := ha.exists_live
  have hy : Machine.AtLive live y :=
    (Machine.atLive_of_starts hsealed hstart).reaches hsealed (Machine.wellFramed_of_starts hstart) hreach
  obtain ⟨id, f, part, hf, hpart, hle, hlt, hbody⟩ := hlive y.1 hy.address
  have hwell := ha.wellFormed.functions f (List.mem_of_getElem? hf)
  constructor
  · intro id' f' entry code hf' hentry hcode hreturns
    rw [ha.getElem?_entries, hf'] at hentry
    cases hentry
    rw [ha.functionCode?_eq] at hcode
    obtain ⟨body, -, rfl⟩ := Emit.function_eq_append (ha.emitted id' f' code hf' hcode)
    refine ⟨body, rfl, fun ⟨hbehind, hend⟩ => ?_⟩
    -- The run is in the code of one function only, so that is the one asked about.
    have hle' : Emit.offset parts id' ≤ y.1 := Nat.le_trans (Nat.le_add_right _ _) hbehind
    cases ha.part_unique hpart hcode ⟨hle, hlt⟩ ⟨hle', hend⟩
    cases hf.symm.trans hf'
    cases hpart.symm.trans hcode
    obtain ⟨body', heq, hlt'⟩ := hbody (hreturns.elim hwell.blockReturns fun h => h)
    cases List.append_cancel_right heq
    exact absurd hlt' (Nat.not_lt.2 hbehind)
  · intro hi
    exact ha.returnsAt hf hpart hi hle hlt hbody

/-- A `func` in which every path returns inside nested conditionals, and one that calls it. -/
def choosing : Program := [
  ⟨"Pick", ["n"], [], [.ifElse (.var "n")
    [.ifElse (.binary .less (.var "n") (.num 0)) [.ret (some (.num 7))] [.ret (some (.var "n"))]]
    [.ret (some (.num 5))]], .func⟩,
  ⟨"Main", [], [], [.ret (some (.call "Pick" [.num 0]))], .func⟩]

/-- The jumps at 8 and 11 lead to the return at 14. -/
def choosingImage : Image :=
  ⟨#[.load (.arg 0), .jumpIfZero 12, .load (.arg 0), .push 0, .arith .less, .jumpIfZero 9, .push 7, .retValue, .jump 11,
    .load (.arg 0), .retValue, .jump 14, .push 5, .retValue, .push 0, .retValue,
    .push 0, .call 0 1, .retValue],
    #[⟨"Pick", 1, 0, .func, 0⟩, ⟨"Main", 0, 0, .func, 16⟩]⟩

/-- A point in `Main`. -/
def inMain (pc : Nat) (stack : Array Word) : Nat × State (Bindings Unit) :=
  (pc, ⟨Machine.idle, stack, #[⟨none, 0, 0, #[]⟩]⟩)

/-- A point in the call of `Pick`. -/
def inPick (pc : Nat) (stack : Array Word) : Nat × State (Bindings Unit) :=
  (pc, ⟨Machine.idle, stack, #[⟨none, 0, 0, #[]⟩, ⟨some 18, 0, 1, #[]⟩]⟩)

theorem choosing_terminator_is_dead :
    choosing.compile ⟨[], []⟩ = .ok choosingImage ∧
    (Machine.mk choosingImage 2).Starts "Main" [] ⟨Machine.idle, #[], #[]⟩ (inMain 16 #[]) ∧
    (Machine.mk choosingImage 2).Reaches (inMain 16 #[]) (inPick 13 #[0, 5]) ∧
    (∃ body, choosingImage.functionCode? 0 = some (body ++ [.push 0, .retValue]) ∧
      ¬ (0 + body.length ≤ 13 ∧ 13 < 0 + 16)) ∧
    choosingImage.ReturnsAt choosing ⟨[], []⟩ 13 := by
  have hc : choosing.compile ⟨[], []⟩ = .ok choosingImage := rfl
  have hstart : (Machine.mk choosingImage 2).Starts "Main" [] ⟨Machine.idle, #[], #[]⟩ (inMain 16 #[]) :=
    ⟨1, ⟨"Main", 0, 0, .func, 16⟩, by decide +kernel, rfl, rfl⟩
  have hpush : (Machine.mk choosingImage 2).Goes (inMain 16 #[]) (inMain 17 #[0]) := rfl
  have hcall : (Machine.mk choosingImage 2).Goes (inMain 17 #[0]) (inPick 0 #[0]) := rfl
  have hload : (Machine.mk choosingImage 2).Goes (inPick 0 #[0]) (inPick 1 #[0, 0]) := rfl
  have hjump : (Machine.mk choosingImage 2).Goes (inPick 1 #[0, 0]) (inPick 12 #[0]) := rfl
  have hlast : (Machine.mk choosingImage 2).Goes (inPick 12 #[0]) (inPick 13 #[0, 5]) := rfl
  have hreach : (Machine.mk choosingImage 2).Reaches (inMain 16 #[]) (inPick 13 #[0, 5]) :=
    .head hpush (.head hcall (.head hload (.head hjump (.single hlast))))
  have hcode : choosingImage.functionCode? 0 = some (choosingImage.code.extract 0 16).toList := rfl
  obtain ⟨hdead, hvalue⟩ := Program.terminator_is_dead hc hstart hreach
  obtain ⟨body, hbody, hnot⟩ := hdead 0 _ _ _ rfl rfl hcode (.inl rfl)
  exact ⟨hc, hstart, hreach, ⟨body, hcode.trans (congrArg some hbody), hnot⟩, hvalue rfl⟩

end Wordlang
