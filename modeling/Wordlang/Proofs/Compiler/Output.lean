import Wordlang.Proofs.Check.Verdict
import Wordlang.Proofs.Compiler.Jumps
import Wordlang.Proofs.Compiler.Variables

/-!
# The layout of compiled code

The code of the functions of a program stands one behind the other without a gap, in the order of their
declaration. The code of a function ends in a return, and all of its jumps lead forward to one of its own
instructions: the address behind the last statement is still inside, because either that statement is a return or
a return follows it.

Main statement: `Program.laidOut_of_compile`.
-/

namespace Wordlang

/-! ## Instructions -/

/-- The instruction by which a function of the kind returns. -/
def FunctionKind.leaving : FunctionKind → Instruction
  | .func => .retValue
  | .proc => .ret

/-- The slot is in the frame that the entry describes, or is that of a declared global. -/
def Slot.Fits (env : Environment) (entry : Entry) : Slot → Prop
  | .arg i => i < entry.params
  | .loc i => i < entry.locals
  | .global id => id < env.globals.length

/-- What an instruction of a function refers to is there, and returns are those of its kind. The functions of the
program have their numbers of parameters by `arity?`. -/
def Instruction.Fits (arity? : Nat → Option Nat) (env : Environment) (entry : Entry) : Instruction → Prop
  | .load slot => slot.Fits env entry
  | .store slot => slot.Fits env entry
  | .call id argc => arity? id = some argc
  | .callExternal id argc kind => ∃ external, env.functions[id]? = some external ∧ external.arity = argc ∧
    external.kind = kind
  | .ret => entry.kind = .proc
  | .retValue => entry.kind = .func
  | _ => True

def Program.arity? (p : Program) (id : Nat) : Option Nat := p[id]?.map (·.params.length)

def Image.arity? (image : Image) (id : Nat) : Option Nat := image.entries[id]?.map (·.params)

/-- What a compiled program looks like. -/
structure Image.LaidOut (p : Program) (env : Environment) (image : Image) : Prop where
  entries : image.entries.toList.map (fun entry => (entry.name, entry.params, entry.locals, entry.kind)) =
    p.map fun f => (f.name, f.params.length, f.locals.length, f.kind)
  ids : ∃ table, p.verify = .ok table ∧ ∀ id entry, image.entries[id]? = some entry →
    table.get? entry.name = some ⟨id, entry.params, entry.kind⟩
  first : ∀ entry, image.entries[0]? = some entry → entry.address = 0
  increasing : (image.entries.toList.map (·.address)).Pairwise (· < ·)
  /-- The code of all functions, one after the other, is the whole code. -/
  whole : ∃ parts : List (List Instruction),
    (List.range image.entries.size).map image.functionCode? = parts.map some ∧ parts.flatten = image.code.toList
  functions : ∀ id entry code, image.entries[id]? = some entry → image.functionCode? id = some code →
    code.getLast? = some entry.kind.leaving ∧ (∀ i ∈ code, i.Fits image.arity? env entry) ∧
    ∀ offset i target, code[offset]? = some i → i.target? = some target →
      entry.address + offset < target ∧ target < entry.address + code.length

/-! ## The instructions of expressions -/

namespace Emit

/-- The instructions of which the code of expressions consists: none of them stores or returns, and the names of
variables and functions have been resolved in the scope. -/
inductive Computes (s : Scope) : Instruction → Prop
  | push (n : Word) : Computes s (.push n)
  | load {name : String} {slot : Slot} : s.slot name = .ok slot → Computes s (.load slot)
  | neg : Computes s .neg
  | arith (op : Arith) : Computes s (.arith op)
  | jump (target : Nat) : Computes s (.jump target)
  | jumpIfZero (target : Nat) : Computes s (.jumpIfZero target)
  | jumpIfNonZero (target : Nat) : Computes s (.jumpIfNonZero target)
  | call {name : String} {signature : Signature} : s.signatures.get? name = some signature →
    Computes s (.call signature.id signature.arity)
  | callExternal {name : String} {argc id : Nat} {external : External} :
    s.env.resolveFunction? name argc = some (id, external) → Computes s (.callExternal id argc external.kind)

variable {s : Scope}

theorem callee_computes {name : String} {argc : Nat} {call : Instruction} {kind : FunctionKind}
    (h : s.callee name argc = .ok (call, kind)) : Computes s call := by
  unfold Scope.callee at h
  split at h
  · rename_i signature hget
    split at h
    · rename_i harity
      cases h
      exact harity ▸ .call hget
    · cases h
  · split at h
    · rename_i hresolve
      cases h
      exact .callExternal hresolve
    · cases h

theorem skipRight_computes (op : BinaryOp) (target : Nat) : Computes s (skipRight op target) := by
  unfold skipRight
  split
  · exact .jumpIfNonZero target
  · exact .jumpIfZero target

mutual

theorem value_computes {e : Expr} {start : Nat} {code : List Instruction} (h : value s start e = .ok code) :
    ∀ i ∈ code, Computes s i := by
  match e with
  | .num n =>
    cases h
    exact List.forall_mem_singleton.2 (.push n)
  | .var name =>
    obtain ⟨slot, hs, h⟩ := parts_ok h
    cases h
    exact List.forall_mem_singleton.2 (.load hs)
  | .unary .identity operand =>
    simp only [value] at h
    exact value_computes h
  | .unary .negate operand =>
    obtain ⟨a, ha, h⟩ := parts_ok h
    cases h
    exact List.forall_mem_append.2 ⟨value_computes ha, List.forall_mem_singleton.2 .neg⟩
  | .binary op left right =>
    obtain ⟨a, ha, h⟩ := parts_ok h
    cases hop : op.strict? with
    | some arith =>
      simp only [hop] at h
      obtain ⟨b, hb, h⟩ := parts_ok h
      cases h
      simp only [List.forall_mem_append, List.forall_mem_singleton]
      exact ⟨⟨value_computes ha, value_computes hb⟩, .arith arith⟩
    | none =>
      simp only [hop] at h
      obtain ⟨b, hb, h⟩ := parts_ok h
      cases h
      simp only [List.forall_mem_append, List.forall_mem_singleton]
      refine ⟨⟨⟨value_computes ha, skipRight_computes _ _⟩, value_computes hb⟩, ?_⟩
      simp only [List.forall_mem_cons]
      exact ⟨.push 0, .arith .notEqual, .jump _, .push (decided op), List.forall_mem_nil _⟩
  | .call name args =>
    simp only [value] at h
    obtain ⟨a, ha, h⟩ := parts_ok h
    obtain ⟨⟨call, kind⟩, hcall, h⟩ := parts_ok h
    cases kind with
    | func =>
      cases h
      exact List.forall_mem_append.2 ⟨values_computes ha, List.forall_mem_singleton.2 (callee_computes hcall)⟩
    | proc => cases h

theorem values_computes {es : List Expr} {start : Nat} {code : List Instruction}
    (h : values s start es = .ok code) : ∀ i ∈ code, Computes s i := by
  match es with
  | [] =>
    cases h
    simp
  | e :: es =>
    simp only [values] at h
    obtain ⟨a, ha, h⟩ := parts_ok h
    obtain ⟨b, hb, h⟩ := parts_ok h
    cases h
    exact List.forall_mem_append.2 ⟨value_computes ha, values_computes hb⟩

end

/-- A statement that is an expression computes it, and drops what it leaves. -/
theorem statement_expr_computes {e : Expr} {start : Nat} {code : List Instruction}
    (h : statement s start (.expr e) = .ok code) : ∀ i ∈ code, Computes s i ∨ i = .pop := by
  have left : ∀ {part : List Instruction}, (∀ i ∈ part, Computes s i) → ∀ i ∈ part, Computes s i ∨ i = .pop :=
    fun hpart i hi => .inl (hpart i hi)
  cases e with
  | call name args =>
    simp only [statement] at h
    obtain ⟨a, ha, h⟩ := parts_ok h
    obtain ⟨⟨call, kind⟩, hcall, h⟩ := parts_ok h
    cases kind with
    | func =>
      cases h
      refine List.forall_mem_append.2 ⟨left (values_computes ha), List.forall_mem_cons.2 ⟨.inl (callee_computes hcall), ?_⟩⟩
      exact List.forall_mem_singleton.2 (.inr rfl)
    | proc =>
      cases h
      exact List.forall_mem_append.2 ⟨left (values_computes ha), List.forall_mem_singleton.2 (.inl (callee_computes hcall))⟩
  | _ =>
    simp only [statement] at h
    obtain ⟨a, ha, h⟩ := parts_ok h
    cases h
    exact List.forall_mem_append.2 ⟨left (value_computes ha), List.forall_mem_singleton.2 (.inr rfl)⟩

/-! ## What emitted instructions refer to -/

variable {p : Program} {env : Environment} {f : Function} {address : Nat}

theorem slot_fits {name : String} {slot : Slot} (h : (Scope.mk f (Signatures.listing 0 p) env).slot name = .ok slot) :
    slot.Fits env (entry f address) := by
  have hlt : ∀ {names : List String} {i : Nat}, names.idxOf? name = some i → i < names.length := by
    intro names i hi
    obtain ⟨hlt, -⟩ := List.findIdx?_eq_some_iff_getElem.1 hi
    exact hlt
  rcases Scope.slot_cases h with ⟨i, rfl, hi⟩ | ⟨i, rfl, -, hi⟩ | ⟨id, rfl, -, -, hid⟩
  · exact hlt hi
  · exact hlt hi
  · exact hlt hid

theorem Computes.fits {i : Instruction} (h : Computes ⟨f, Signatures.listing 0 p, env⟩ i) :
    i.Fits p.arity? env (entry f address) := by
  cases h with
  | load hs => exact slot_fits hs
  | call hget =>
    obtain ⟨id, g, rfl, hg, -⟩ := Signatures.listing_get?_some hget
    simp [Instruction.Fits, Program.arity?, hg]
  | callExternal hresolve =>
    simp only [Environment.resolveFunction?, Option.bind_eq_bind, Option.bind_eq_some_iff] at hresolve
    obtain ⟨_, -, _, hexternal, hresolve⟩ := hresolve
    split at hresolve
    · rename_i harity
      cases hresolve
      exact ⟨_, hexternal, harity, rfl⟩
    · cases hresolve
  | _ => trivial

theorem value_fits {e : Expr} {start : Nat} {code : List Instruction}
    (h : value ⟨f, Signatures.listing 0 p, env⟩ start e = .ok code) :
    ∀ i ∈ code, i.Fits p.arity? env (entry f address) :=
  fun i hi => (value_computes h i hi).fits

theorem statement_expr_fits {e : Expr} {start : Nat} {code : List Instruction}
    (h : statement ⟨f, Signatures.listing 0 p, env⟩ start (.expr e) = .ok code) :
    ∀ i ∈ code, i.Fits p.arity? env (entry f address) := by
  intro i hi
  rcases statement_expr_computes h i hi with hcomputes | rfl
  · exact hcomputes.fits
  · trivial

mutual

theorem statement_fits {s : Stmt} {start : Nat} {code : List Instruction}
    (hret : ∀ value, s = .ret value → (value.isSome = true ↔ f.kind = .func))
    (hbranch : ∀ b, Stmt.ReturnsFit f.kind (s.branch b))
    (h : statement ⟨f, Signatures.listing 0 p, env⟩ start s = .ok code) :
    ∀ i ∈ code, i.Fits p.arity? env (entry f address) := by
  match s with
  | .expr e => exact statement_expr_fits h
  | .set target e =>
    simp only [statement] at h
    obtain ⟨a, ha, h⟩ := parts_ok h
    obtain ⟨slot, hs, h⟩ := parts_ok h
    cases h
    exact List.forall_mem_append.2 ⟨value_fits ha, List.forall_mem_singleton.2 (slot_fits hs)⟩
  | .ret none =>
    cases h
    refine List.forall_mem_singleton.2 ?_
    cases hk : f.kind with
    | proc => exact hk
    | func => simpa using (hret none rfl).2 hk
  | .ret (some e) =>
    simp only [statement] at h
    obtain ⟨a, ha, h⟩ := parts_ok h
    cases h
    exact List.forall_mem_append.2 ⟨value_fits ha, List.forall_mem_singleton.2 ((hret (some e) rfl).1 rfl)⟩
  | .ifThen test body =>
    simp only [statement] at h
    obtain ⟨a, ha, h⟩ := parts_ok h
    obtain ⟨b, hb, h⟩ := parts_ok h
    cases h
    simp only [List.forall_mem_append, List.forall_mem_singleton]
    exact ⟨⟨value_fits ha, trivial⟩, block_fits (hbranch true) hb⟩
  | .ifElse test yes no =>
    simp only [statement] at h
    obtain ⟨a, ha, h⟩ := parts_ok h
    obtain ⟨b, hb, h⟩ := parts_ok h
    obtain ⟨c, hc, h⟩ := parts_ok h
    cases h
    simp only [List.forall_mem_append, List.forall_mem_singleton]
    exact ⟨⟨⟨⟨value_fits ha, trivial⟩, block_fits (hbranch true) hb⟩, trivial⟩, block_fits (hbranch false) hc⟩

theorem block_fits {body : List Stmt} {start : Nat} {code : List Instruction} (hbody : Stmt.ReturnsFit f.kind body)
    (h : block ⟨f, Signatures.listing 0 p, env⟩ start body = .ok code) :
    ∀ i ∈ code, i.Fits p.arity? env (entry f address) := by
  match body with
  | [] =>
    cases h
    simp
  | s :: rest =>
    obtain ⟨hret, hbranch, hrest⟩ := Stmt.returnsFit_cons.1 hbody
    simp only [block] at h
    obtain ⟨a, ha, h⟩ := parts_ok h
    obtain ⟨b, hb, h⟩ := parts_ok h
    cases h
    exact List.forall_mem_append.2 ⟨statement_fits hret hbranch ha, block_fits hrest hb⟩

end

theorem terminator_fits (f : Function) : ∀ i ∈ terminator f, i.Fits p.arity? env (entry f address) := by
  cases hk : f.kind with
  | func =>
    unfold terminator
    split <;> simp_all [Instruction.Fits, entry]
  | proc =>
    unfold terminator
    split <;> simp_all [Instruction.Fits, entry]

theorem function_fits {start : Nat} {code : List Instruction} (hf : f.WellFormed)
    (h : function (Signatures.listing 0 p) env start f = .ok code) :
    ∀ i ∈ code, i.Fits p.arity? env (entry f address) := by
  obtain ⟨body, hb, h⟩ := parts_ok (ok_of_inFunction h)
  cases h
  exact List.forall_mem_append.2 ⟨block_fits hf.returns hb, terminator_fits f⟩

/-! ## The end of a function -/

/-- The code of a block that ends with a return statement ends with the return. Its jumps do not lead behind that. -/
theorem block_ends {s : Scope} {value : Option Expr} : ∀ {body : List Stmt} {start : Nat} {code : List Instruction},
    block s start body = .ok code → body.getLast? = some (.ret value) →
    ∃ init, code = init ++ [if value.isSome then .retValue else .ret] ∧ JumpsWithin start (start + init.length) init
  | [], _, _, _, hl => by simp at hl
  | [st], start, code, h, hl => by
    cases (by simpa using hl : st = .ret value)
    simp only [block] at h
    obtain ⟨a, ha, h⟩ := parts_ok h
    obtain ⟨b, hb, h⟩ := parts_ok h
    cases hb
    cases h
    cases value with
    | none =>
      cases ha
      exact ⟨[], rfl, .nil⟩
    | some e =>
      simp only [statement] at ha
      obtain ⟨v, hv, ha⟩ := parts_ok ha
      cases ha
      exact ⟨v, by simp, value_jumps hv (Nat.le_refl _)⟩
  | st :: st' :: rest, start, code, h, hl => by
    unfold block at h
    obtain ⟨a, ha, h⟩ := parts_ok h
    obtain ⟨b, hb, h⟩ := parts_ok h
    cases h
    obtain ⟨init, rfl, hjumps⟩ := block_ends hb (by simpa using hl)
    refine ⟨a ++ init, by simp, .append (statement_jumps ha ?_) ?_⟩
    · rw [List.length_append]
      omega
    · rwa [List.length_append, ← Nat.add_assoc]

/-- The code of a function ends with a return of its kind. Its jumps do not lead behind that. -/
theorem function_ends {start : Nat} {code : List Instruction} (hf : f.WellFormed)
    (h : function (Signatures.listing 0 p) env start f = .ok code) :
    ∃ init, code = init ++ [f.kind.leaving] ∧ JumpsWithin start (start + init.length) init := by
  obtain ⟨body, hb, h⟩ := parts_ok (ok_of_inFunction h)
  cases h
  unfold terminator
  split
  · rename_i value hlast
    have hfits : ∀ i ∈ body, i.Fits p.arity? env (entry f start) := block_fits hf.returns hb
    obtain ⟨init, rfl, hinit⟩ := block_ends hb hlast
    have hreturn := hfits _ (List.mem_append_right init (List.mem_singleton_self _))
    refine ⟨init, ?_, hinit⟩
    cases value with
    | none =>
      have hkind : f.kind = .proc := hreturn
      simp [FunctionKind.leaving, hkind]
    | some e =>
      have hkind : f.kind = .func := hreturn
      simp [FunctionKind.leaving, hkind]
  · refine ⟨body ++ [.push 0], by simp [FunctionKind.leaving, *], .append ?_ (.plain rfl .nil)⟩
    exact block_jumps hb (by simp)
  · exact ⟨body, by simp [FunctionKind.leaving, *], block_jumps hb (Nat.le_refl _)⟩

/-! ## Functions one behind the other -/

/-- Where a part starts when the parts stand one behind the other. -/
def offset (parts : List (List Instruction)) (id : Nat) : Nat := (parts.take id).flatten.length

variable {parts : List (List Instruction)} {part : List Instruction} {id : Nat}

theorem offset_zero : offset parts 0 = 0 := by simp [offset]

theorem offset_cons : offset (part :: parts) (id + 1) = part.length + offset parts id := by simp [offset]

theorem offset_succ (h : parts[id]? = some part) : offset parts (id + 1) = offset parts id + part.length := by
  simp [offset, List.take_add_one, h]

theorem offset_length : offset parts parts.length = parts.flatten.length := by simp [offset]

theorem offset_lt (hne : ∀ part ∈ parts, part ≠ []) {id' : Nat} (hlt : id < id') (hle : id' ≤ parts.length) :
    offset parts id < offset parts id' := by
  induction id' with
  | zero => omega
  | succ id' ih =>
    have hget : parts[id']? = some (parts[id']) := List.getElem?_eq_getElem hle
    have hpos := List.length_pos_iff.2 (hne _ (List.mem_of_getElem? hget))
    rw [offset_succ hget]
    rcases Nat.lt_succ_iff_lt_or_eq.1 hlt with hlt | rfl
    · have := ih hlt (by omega)
      omega
    · omega

theorem flatten_split (parts : List (List Instruction)) (id : Nat) :
    parts.flatten = (parts.take id).flatten ++ (parts.drop id).flatten := by
  rw [← List.flatten_append, List.take_append_drop]

theorem offset_le : offset parts id ≤ parts.flatten.length := by
  rw [flatten_split parts id, List.length_append]
  exact Nat.le_add_right _ _

/-- The part at an index, cut out of the whole. -/
theorem extract_offset (h : parts[id]? = some part) :
    (parts.flatten.toArray.extract (offset parts id) (offset parts (id + 1))).toList = part := by
  obtain ⟨hlt, rfl⟩ := List.getElem?_eq_some_iff.1 h
  rw [offset_succ h, flatten_split parts id, List.drop_eq_getElem_cons hlt, List.flatten_cons]
  simp [offset]

theorem functions_parts {table : Signatures} : ∀ {fs : List Function} {start : Nat} {code : List Instruction}
    {entries : List Entry}, functions table env start fs = .ok (code, entries) →
    ∃ parts : List (List Instruction), parts.length = fs.length ∧ code = parts.flatten ∧
      entries = fs.mapIdx (fun id f => entry f (start + offset parts id)) ∧
      ∀ id f part, fs[id]? = some f → parts[id]? = some part →
        function table env (start + offset parts id) f = .ok part
  | [], _, _, _, h => by
    cases h
    exact ⟨[], rfl, rfl, rfl, by simp⟩
  | f :: fs, start, _, _, h => by
    simp only [functions] at h
    obtain ⟨first, hfirst, h⟩ := parts_ok h
    obtain ⟨⟨code, entries⟩, hrest, h⟩ := parts_ok h
    cases h
    obtain ⟨parts, hlength, rfl, rfl, hparts⟩ := functions_parts hrest
    refine ⟨first :: parts, by simp [hlength], by simp, ?_, fun id g part hg hpart => ?_⟩
    · simp [List.mapIdx_cons, offset_zero, offset_cons, Nat.add_assoc]
    · cases id with
      | zero =>
        cases (by simpa using hg : f = g)
        cases (by simpa using hpart : first = part)
        simpa [offset_zero] using hfirst
      | succ id =>
        rw [offset_cons, ← Nat.add_assoc]
        exact hparts id g part (by simpa using hg) (by simpa using hpart)

end Emit

/-- In a program whose functions have different names, each is listed by its own name. -/
theorem Signatures.listing_get?_of_getElem? {f : Function} : ∀ {fs : List Function} {n id : Nat},
    (fs.map (·.name)).Nodup → fs[id]? = some f →
    (Signatures.listing n fs).get? f.name = some ⟨n + id, f.params.length, f.kind⟩
  | [], _, _, _, h => by simp at h
  | g :: fs, n, id, hnodup, h => by
    rw [List.map_cons, List.nodup_cons] at hnodup
    cases id with
    | zero =>
      cases (by simpa using h : g = f)
      simp [listing, get?]
    | succ id =>
      have hmem : f.name ∈ fs.map (·.name) := List.mem_map_of_mem (List.mem_of_getElem? (by simpa using h))
      have hne : (f.name == g.name) = false := by
        simp only [beq_eq_false_iff_ne]
        intro heq
        exact hnodup.1 (heq ▸ hmem)
      have hget := listing_get?_of_getElem? (n := n + 1) hnodup.2 (by simpa using h)
      rw [Nat.add_right_comm] at hget
      simp only [listing, get?, List.lookup_cons, hne]
      exact hget

/-! ## Images -/

/-- The image is made of the code of the functions of a well-formed program, one behind the other. -/
structure Image.Assembled (p : Program) (env : Environment) (parts : List (List Instruction)) (image : Image) :
    Prop where
  wellFormed : p.WellFormed
  length : parts.length = p.length
  code : image.code = parts.flatten.toArray
  entries : image.entries = (p.mapIdx fun id f => Emit.entry f (Emit.offset parts id)).toArray
  emitted : ∀ id f part, p[id]? = some f → parts[id]? = some part →
    Emit.function (Signatures.listing 0 p) env (Emit.offset parts id) f = .ok part

namespace Image.Assembled

open Emit

variable {p : Program} {env : Environment} {parts : List (List Instruction)} {image : Image} {id : Nat} {entry : Entry}

theorem of_compile (h : p.compile env = .ok image) : ∃ parts, image.Assembled p env parts := by
  obtain ⟨table, hv, h⟩ := parts_ok h
  obtain ⟨⟨code, entries⟩, he, h⟩ := parts_ok h
  cases h
  obtain ⟨rfl, -⟩ := Program.verify_eq_ok hv
  obtain ⟨parts, hlength, rfl, rfl, hparts⟩ := functions_parts he
  simp only [Nat.zero_add] at hparts
  exact ⟨parts, Program.verify_succeeds_iff.1 ⟨_, hv⟩, hlength, rfl, by simp only [Nat.zero_add], hparts⟩

theorem getElem?_entries (h : image.Assembled p env parts) (id : Nat) :
    image.entries[id]? = p[id]?.map fun f => Emit.entry f (offset parts id) := by
  simp [h.entries]

/-- An entry is that of the function at its place, whose code is a part. -/
theorem exists_function (h : image.Assembled p env parts) (hentry : image.entries[id]? = some entry) :
    ∃ f part, p[id]? = some f ∧ parts[id]? = some part ∧ entry = Emit.entry f (offset parts id) := by
  rw [h.getElem?_entries] at hentry
  obtain ⟨f, hf, rfl⟩ := Option.map_eq_some_iff.1 hentry
  obtain ⟨hlt, -⟩ := List.getElem?_eq_some_iff.1 hf
  exact ⟨f, _, hf, List.getElem?_eq_getElem (h.length ▸ hlt), rfl⟩

theorem codeEnd_eq (h : image.Assembled p env parts) (hlt : id < p.length) :
    image.codeEnd id = offset parts (id + 1) := by
  unfold Image.codeEnd
  rw [h.getElem?_entries]
  cases hnext : p[id + 1]? with
  | some f => rfl
  | none =>
    have hlast : id + 1 = parts.length := by
      have := List.getElem?_eq_none_iff.1 hnext
      have := h.length
      omega
    rw [hlast, offset_length]
    simp [h.code]

/-- The code that an image gives for a function is its part. -/
theorem functionCode?_eq (h : image.Assembled p env parts) (id : Nat) : image.functionCode? id = parts[id]? := by
  unfold Image.functionCode?
  cases hentry : image.entries[id]? with
  | none =>
    rw [h.getElem?_entries, Option.map_eq_none_iff, List.getElem?_eq_none_iff, ← h.length] at hentry
    rw [List.getElem?_eq_none hentry]
    rfl
  | some entry =>
    obtain ⟨f, part, hf, hpart, rfl⟩ := h.exists_function hentry
    obtain ⟨hlt, -⟩ := List.getElem?_eq_some_iff.1 hf
    have hstart : offset parts id ≤ offset parts (id + 1) := by
      rw [offset_succ hpart]
      exact Nat.le_add_right _ _
    simp only [h.codeEnd_eq hlt, h.code, Emit.entry, Option.bind_eq_bind, Option.bind_some, List.size_toArray]
    rw [if_pos ⟨hstart, offset_le⟩, extract_offset hpart, hpart]

theorem arity?_eq (h : image.Assembled p env parts) : image.arity? = p.arity? := by
  funext id
  unfold Image.arity? Program.arity?
  rw [h.getElem?_entries, Option.map_map]
  rfl

theorem part_ne_nil (h : image.Assembled p env parts) : ∀ part ∈ parts, part ≠ [] := by
  intro part hmem
  obtain ⟨id, hpart⟩ := List.getElem?_of_mem hmem
  obtain ⟨hlt, -⟩ := List.getElem?_eq_some_iff.1 hpart
  rw [h.length] at hlt
  have hf := List.getElem?_eq_getElem hlt
  obtain ⟨init, rfl, -⟩ :=
    function_ends (h.wellFormed.functions _ (List.mem_of_getElem? hf)) (h.emitted id _ part hf hpart)
  simp

theorem increasing (h : image.Assembled p env parts) : (image.entries.toList.map (·.address)).Pairwise (· < ·) := by
  rw [List.pairwise_iff_getElem]
  intro id id' hid hid' hlt
  have hle : id' ≤ parts.length := by
    rw [h.length]
    simpa [h.entries] using Nat.le_of_lt hid'
  simpa [h.entries, Emit.entry] using offset_lt h.part_ne_nil hlt hle

/-- What the code of a function looks like. -/
theorem code_fits (h : image.Assembled p env parts) {code : List Instruction}
    (hentry : image.entries[id]? = some entry) (hcode : image.functionCode? id = some code) :
    code.getLast? = some entry.kind.leaving ∧ (∀ i ∈ code, i.Fits image.arity? env entry) ∧
    ∀ offset i target, code[offset]? = some i → i.target? = some target →
      entry.address + offset < target ∧ target < entry.address + code.length := by
  obtain ⟨f, part, hf, hpart, rfl⟩ := h.exists_function hentry
  rw [h.functionCode?_eq, hpart] at hcode
  cases hcode
  have hwell := h.wellFormed.functions f (List.mem_of_getElem? hf)
  have hemit := h.emitted id f code hf hpart
  have hfits : ∀ i ∈ code, i.Fits p.arity? env (Emit.entry f (Emit.offset parts id)) := function_fits hwell hemit
  obtain ⟨init, rfl, hjumps⟩ := function_ends hwell hemit
  refine ⟨List.getLast?_concat, h.arity?_eq ▸ hfits, fun offset i target hi htarget => ?_⟩
  have hjumps' : JumpsWithin (Emit.offset parts id) (Emit.offset parts id + init.length)
      (init ++ [f.kind.leaving]) := by
    refine hjumps.append (.plain ?_ .nil)
    cases f.kind <;> rfl
  have := hjumps' offset i hi target htarget
  simp only [Emit.entry, List.length_append, List.length_singleton]
  omega

end Image.Assembled

/-- A compiled program is laid out as its entries say. -/
theorem Program.laidOut_of_compile {p : Program} {env : Environment} {image : Image}
    (h : p.compile env = .ok image) : image.LaidOut p env := by
  obtain ⟨parts, ha⟩ := Image.Assembled.of_compile h
  constructor
  case entries =>
    refine List.ext_getElem? fun id => ?_
    simp [ha.entries, Emit.entry, Function.comp_def]
  case ids =>
    obtain ⟨table, hv⟩ := Program.verify_succeeds_iff.2 ha.wellFormed
    obtain ⟨rfl, -⟩ := Program.verify_eq_ok hv
    refine ⟨_, hv, fun id entry hentry => ?_⟩
    obtain ⟨f, part, hf, -, rfl⟩ := ha.exists_function hentry
    simpa [Emit.entry] using Signatures.listing_get?_of_getElem? (n := 0) ha.wellFormed.names hf
  case first =>
    intro entry hentry
    obtain ⟨f, part, -, -, rfl⟩ := ha.exists_function hentry
    simp only [Emit.entry, Emit.offset_zero]
  case increasing => exact ha.increasing
  case whole =>
    refine ⟨parts, ?_, by simp [ha.code]⟩
    rw [funext ha.functionCode?_eq]
    refine List.ext_getElem? fun id => ?_
    by_cases hid : id < parts.length
    · simp [ha.entries, ← ha.length, hid]
    · simp [ha.entries, ← ha.length, hid]
  case functions =>
    intro id entry code hentry hcode
    exact ha.code_fits hentry hcode

/-- Both conditionals end at the return behind them. -/
def nested : Program := [
  ⟨"Value", [], [], [.ret (some (.num 3))], .func⟩,
  ⟨"Nest", ["n"], ["x"], [.ifThen (.var "n") [.ifElse (.binary .and (.var "n") (.call "tick" [.var "x"]))
    [.set "x" (.num 1)] [.set "count" (.call "Value" [])]]], .proc⟩]

def ticking : Environment := ⟨[⟨"tick", 1, .func⟩], ["count"]⟩

def nestedImage : Image :=
  ⟨#[.push 3, .retValue,
    .load (.arg 0), .jumpIfZero 18, .load (.arg 0), .jumpIfZero 11, .load (.loc 0), .callExternal 0 1 .func, .push 0,
    .arith .notEqual, .jump 12, .push 0, .jumpIfZero 16, .push 1, .store (.loc 0), .jump 18, .call 0 0,
    .store (.global 0), .ret],
    #[⟨"Value", 0, 0, .func, 0⟩, ⟨"Nest", 1, 1, .proc, 2⟩]⟩

theorem nested_laidOut : nested.compile ticking = .ok nestedImage ∧ nestedImage.LaidOut nested ticking := by
  have h : nested.compile ticking = .ok nestedImage := rfl
  exact ⟨h, Program.laidOut_of_compile h⟩

end Wordlang
