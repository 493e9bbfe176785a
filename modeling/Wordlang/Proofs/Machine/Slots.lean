import Wordlang.Machine.Host
import Wordlang.Proofs.Environment.Registration

/-!
# Names, ids and slots

The bindings made for an environment keep one slot for each of its names. Whatever is registered, bound and
written in whatever order, the name and the id lead to the same slot, which holds what was put there last.

Main statement: `Bindings.coherent_performAll`.
-/

namespace Wordlang

/-! ## Requests -/

namespace Bindings

variable {σ : Type}

/-- What may be asked of bindings. -/
inductive Request (σ : Type)
  | bind (name : String) (body : ExternalBody σ)
  | setGlobal (name : String) (value : Word)
  | storeGlobal (id : Nat) (value : Word)
  | loadGlobal (id : Nat)
  | callExternal (id : Nat) (args : List Word)

/-- The body that the request binds to a name. -/
def Request.bound? (name : String) : Request σ → Option (ExternalBody σ)
  | .bind other body => if other = name then some body else none
  | _ => none

/-- The value that the request gives a global. -/
def Request.written? (env : Environment) (name : String) : Request σ → Option Word
  | .setGlobal other value => if other = name then some value else none
  | .storeGlobal id value => if env.globalName? id = some name then some value else none
  | _ => none

def lastBound (reqs : List (Request σ)) (name : String) : Option (ExternalBody σ) :=
  latest (Request.bound? name) reqs

def lastWritten (env : Environment) (reqs : List (Request σ)) (name : String) : Word :=
  (latest (Request.written? env name) reqs).getD 0

/-- What a request gives that does not fail. -/
inductive Reply
  | done
  | id (id : Nat)
  | value (value : Word)

def Reply.ofOutcome {α β : Type} (reply : α → Reply) (out : Except Fault α × β) : Except Fault Reply × β :=
  (out.1.map reply, out.2)

/-- What a request gives, and the bindings behind it. -/
def perform (b : Bindings σ) : Request σ → Except Fault Reply × Bindings σ
  | .bind name body =>
    match b.bind name body with
    | .ok (id, b') => (.ok (.id id), b')
    | .error fault => (.error fault, b)
  | .setGlobal name value =>
    match b.setGlobal name value with
    | .ok b' => (.ok .done, b')
    | .error fault => (.error fault, b)
  | .storeGlobal id value => Reply.ofOutcome (fun _ => .done) (b.storeGlobal id value)
  | .loadGlobal id => Reply.ofOutcome .value (b.loadGlobal id)
  | .callExternal id args => Reply.ofOutcome .value (b.callExternal id args)

def performAll (b : Bindings σ) (reqs : List (Request σ)) : Bindings σ := reqs.foldl (fun b r => (b.perform r).2) b

/-- Each slot holds what the requests put there last. -/
structure Tracks (b : Bindings σ) (env : Environment) (reqs : List (Request σ)) : Prop where
  functions : b.functions = slots (env.functions.map (·.name)) (lastBound reqs)
  globals : b.globals = slots env.globals (lastWritten env reqs)

/-- What bindings answer that were made for an environment and then got some requests. -/
structure Answers (b : Bindings σ) (env : Environment) (reqs : List (Request σ)) : Prop where
  bind_known : ∀ {name id} body, env.functionId? name = some id →
    b.bind name body = .ok (id, { b with functions := b.functions.set id (name, some body) })
  bind_unknown : ∀ {name} body, env.functionId? name = none → b.bind name body = .error (.undeclaredExternal name)
  call_bound : ∀ {name id body} args, env.functionId? name = some id → lastBound reqs name = some body →
    b.callExternal id args = (.ok (body args b.world).1, { b with world := (body args b.world).2 })
  call_unbound : ∀ {name id} args, env.functionId? name = some id → lastBound reqs name = none →
    b.callExternal id args = (.error (.unboundExternal name), b)
  call_unknown : ∀ {id} args, env.functions.length ≤ id →
    b.callExternal id args = (.error (.unboundExternal (idText id)), b)
  read_known : ∀ {name id}, env.resolveGlobal? name = some id →
    b.global? name = some (lastWritten env reqs name) ∧ b.loadGlobal id = (.ok (lastWritten env reqs name), b)
  global_unknown : ∀ {name}, env.resolveGlobal? name = none → b.global? name = none
  load_unknown : ∀ {id}, env.globalName? id = none →
    b.loadGlobal id = (.error (.undeclaredGlobal (idText id)), b)
  write_known : ∀ {name id} value, env.resolveGlobal? name = some id →
    b.setGlobal name value = .ok { b with globals := b.globals.set id (name, value) } ∧
    b.storeGlobal id value = (.ok (), { b with globals := b.globals.set id (name, value) })
  set_unknown : ∀ {name} value, env.resolveGlobal? name = none →
    b.setGlobal name value = .error (.undeclaredGlobal name)
  store_unknown : ∀ {id} value, env.globalName? id = none →
    b.storeGlobal id value = (.error (.undeclaredGlobal (idText id)), b)

variable {env : Environment} {rs : List Registration} {b : Bindings σ} {reqs : List (Request σ)} {r : Request σ}

theorem Tracks.answers (h : b.Tracks env reqs) (henv : env.Coherent rs) : b.Answers env reqs := by
  have hfunction : ∀ {name}, b.functions.findIdx? (·.1 == name) = env.functionId? name := by
    intro name
    rw [h.functions, findIdx?_slots, env.functionId?_eq_idxOf?]
  have hglobal : ∀ {name}, b.globals.findIdx? (·.1 == name) = env.resolveGlobal? name := by
    intro name
    rw [h.globals, findIdx?_slots, Environment.resolveGlobal?]
  have hbody : ∀ {name id}, env.functionId? name = some id → b.functions[id]? = some (name, lastBound reqs name) := by
    intro name id hid
    rw [h.functions, getElem?_slots, (henv.functionId_iff name id).1 hid, Option.map_some]
  have hvalue : ∀ {name id}, env.resolveGlobal? name = some id →
      b.globals[id]? = some (name, lastWritten env reqs name) := by
    intro name id hid
    have hname : env.globals[id]? = some name := (henv.resolveGlobal_iff name id).1 hid
    rw [h.globals, getElem?_slots, hname, Option.map_some]
  have hnone : ∀ {id}, env.globalName? id = none → b.globals[id]? = none := by
    intro id hid
    rw [Environment.globalName?] at hid
    rw [h.globals, getElem?_slots, hid, Option.map_none]
  constructor
  case bind_known => exact fun body hid => by rw [Bindings.bind, hfunction, hid]
  case bind_unknown => exact fun body hid => by rw [Bindings.bind, hfunction, hid]
  case call_bound => exact fun args hid hlast => by rw [callExternal, hbody hid, hlast]
  case call_unbound => exact fun args hid hlast => by rw [callExternal, hbody hid, hlast]
  case call_unknown =>
    intro id args hid
    have hslot : b.functions[id]? = none := by simp [h.functions, slots, hid]
    rw [callExternal, hslot]
  case read_known =>
    intro name id hid
    have hmem : name ∈ env.globals := List.mem_of_getElem? ((henv.resolveGlobal_iff name id).1 hid)
    constructor
    · rw [global?, h.globals, lookup_slots, if_pos hmem]
    · rw [loadGlobal, hvalue hid]
  case global_unknown =>
    exact fun hid => by rw [global?, h.globals, lookup_slots, if_neg (List.idxOf?_eq_none_iff.1 hid)]
  case load_unknown => exact fun hid => by rw [loadGlobal, hnone hid]
  case write_known => exact fun value hid => ⟨by rw [setGlobal, hglobal, hid], by rw [storeGlobal, hvalue hid]⟩
  case set_unknown => exact fun value hid => by rw [setGlobal, hglobal, hid]
  case store_unknown => exact fun value hid => by rw [storeGlobal, hnone hid]

/-- What a request can do. -/
inductive Effect (env : Environment) (b : Bindings σ) : Request σ → Except Fault Reply × Bindings σ → Prop
  | bind {name : String} {body : ExternalBody σ} {id : Nat} : env.functionId? name = some id →
    Effect env b (.bind name body) (.ok (.id id), { b with functions := b.functions.set id (name, some body) })
  | write {name : String} {value : Word} {id : Nat} {r : Request σ} : env.resolveGlobal? name = some id →
    r = .setGlobal name value ∨ r = .storeGlobal id value →
    Effect env b r (.ok .done, { b with globals := b.globals.set id (name, value) })
  | load (id : Nat) (value : Word) : Effect env b (.loadGlobal id) (.ok (.value value), b)
  | call (id : Nat) (args : List Word) (value : Word) (world : σ) :
    Effect env b (.callExternal id args) (.ok (.value value), { b with world })
  | failed {r : Request σ} (fault : Fault) : (∀ name id, env.functionId? name = some id → r.bound? name = none) →
    (∀ name id, env.resolveGlobal? name = some id → r.written? env name = none) → Effect env b r (.error fault, b)

theorem Answers.effect (h : b.Answers env reqs) (henv : env.Coherent rs) (r : Request σ) :
    Effect env b r (b.perform r) := by
  cases r with
  | bind name body =>
    cases hid : env.functionId? name with
    | some id =>
      rw [perform, h.bind_known body hid]
      exact .bind hid
    | none =>
      rw [perform, h.bind_unknown body hid]
      refine .failed _ (fun other id hother => ?_) (fun _ _ _ => rfl)
      rw [Request.bound?, if_neg]
      rintro rfl
      cases hid.symm.trans hother
  | setGlobal name value =>
    cases hid : env.resolveGlobal? name with
    | some id =>
      rw [perform, (h.write_known value hid).1]
      exact .write hid (.inl rfl)
    | none =>
      rw [perform, h.set_unknown value hid]
      refine .failed _ (fun _ _ _ => rfl) (fun other id hother => ?_)
      rw [Request.written?, if_neg]
      rintro rfl
      cases hid.symm.trans hother
  | storeGlobal id value =>
    cases hid : env.globalName? id with
    | some name =>
      rw [← henv.resolveGlobal_iff] at hid
      rw [perform, (h.write_known value hid).2]
      exact .write hid (.inr rfl)
    | none =>
      rw [perform, h.store_unknown value hid]
      refine .failed _ (fun _ _ _ => rfl) (fun other _ _ => ?_)
      rw [Request.written?, hid, if_neg (by simp)]
  | loadGlobal id =>
    cases hid : env.globalName? id with
    | some name =>
      rw [← henv.resolveGlobal_iff] at hid
      rw [perform, (h.read_known hid).2]
      exact .load id _
    | none =>
      rw [perform, h.load_unknown hid]
      exact .failed _ (fun _ _ _ => rfl) (fun _ _ _ => rfl)
  | callExternal id args =>
    by_cases hlt : id < env.functions.length
    · have hid : env.functionId? env.functions[id].name = some id := by
        rw [henv.functionId_iff, List.getElem?_map, List.getElem?_eq_getElem hlt, Option.map_some]
      cases hlast : lastBound reqs env.functions[id].name with
      | some body =>
        rw [perform, h.call_bound args hid hlast]
        exact .call id args _ _
      | none =>
        rw [perform, h.call_unbound args hid hlast]
        exact .failed _ (fun _ _ _ => rfl) (fun _ _ _ => rfl)
    · rw [perform, h.call_unknown args (Nat.le_of_not_lt hlt)]
      exact .failed _ (fun _ _ _ => rfl) (fun _ _ _ => rfl)

namespace Effect

variable {out : Except Fault Reply × Bindings σ} {i : Nat}

theorem eq_of_set {α : Type} {l : List α} {j : Nat} {x : α} (h : (l.set j x)[i]? ≠ l[i]?) : j = i := by
  by_contra hij
  exact h (List.getElem?_set_ne hij)

theorem functions_frame (h : Effect env b r out) (hne : out.2.functions[i]? ≠ b.functions[i]?) :
    ∃ name body, r = .bind name body ∧ env.functionId? name = some i := by
  cases h with
  | bind hid =>
    obtain rfl := eq_of_set hne
    exact ⟨_, _, rfl, hid⟩
  | write | load | call | failed => exact absurd rfl hne

theorem globals_frame (h : Effect env b r out) (hne : out.2.globals[i]? ≠ b.globals[i]?) :
    ∃ name value, env.resolveGlobal? name = some i ∧ (r = .setGlobal name value ∨ r = .storeGlobal i value) := by
  cases h with
  | write hid hr =>
    obtain rfl := eq_of_set hne
    exact ⟨_, _, hid, hr⟩
  | bind | load | call | failed => exact absurd rfl hne

theorem world_frame (h : Effect env b r out) (hne : out.2.world ≠ b.world) : ∃ id args, r = .callExternal id args := by
  cases h with
  | call id args value world => exact ⟨id, args, rfl⟩
  | bind | write | load | failed => exact absurd rfl hne

theorem unchanged (h : Effect env b r out) {fault : Fault} (hfault : out.1 = .error fault) : out.2 = b := by
  cases h with
  | failed => rfl
  | bind | write | load | call => cases hfault

end Effect

theorem lastBound_concat (reqs : List (Request σ)) (r : Request σ) (name : String) :
    lastBound (reqs ++ [r]) name = (r.bound? name).or (lastBound reqs name) := latest_concat _ reqs r

theorem lastWritten_concat (env : Environment) (reqs : List (Request σ)) (r : Request σ) (name : String) :
    lastWritten env (reqs ++ [r]) name = (r.written? env name).getD (lastWritten env reqs name) := by
  rw [lastWritten, latest_concat, lastWritten]
  cases r.written? env name <;> rfl

/-- A request that tells nothing of a sort of slots leaves them as they are. -/
theorem Tracks.functions_same (h : b.Tracks env reqs)
    (hr : ∀ name ∈ env.functions.map (·.name), r.bound? name = none) :
    b.functions = slots (env.functions.map (·.name)) (lastBound (reqs ++ [r])) := by
  rw [h.functions]
  refine slots_congr fun name hname => ?_
  rw [lastBound_concat, hr name hname, Option.none_or]

theorem Tracks.globals_same (h : b.Tracks env reqs) (hr : ∀ name ∈ env.globals, r.written? env name = none) :
    b.globals = slots env.globals (lastWritten env (reqs ++ [r])) := by
  rw [h.globals]
  refine slots_congr fun name hname => ?_
  rw [lastWritten_concat, hr name hname, Option.getD_none]

theorem written?_of_write {name : String} {value : Word} {id : Nat} (hname : env.globalName? id = some name)
    (hr : r = .setGlobal name value ∨ r = .storeGlobal id value) :
    r.written? env name = some value ∧ ∀ other, other ≠ name → r.written? env other = none := by
  rcases hr with rfl | rfl
  · exact ⟨if_pos rfl, fun other hne => if_neg (Ne.symm hne)⟩
  · refine ⟨if_pos hname, fun other hne => if_neg ?_⟩
    rw [hname, Option.some_inj]
    exact Ne.symm hne

theorem Tracks.perform (h : b.Tracks env reqs) (henv : env.Coherent rs) (r : Request σ) :
    (b.perform r).2.Tracks env (reqs ++ [r]) := by
  have heffect := (h.answers henv).effect henv r
  generalize b.perform r = out at heffect
  cases heffect with
  | @bind name body id hid =>
    refine ⟨?_, h.globals_same fun _ _ => rfl⟩
    have hlast : lastBound (reqs ++ [.bind name body]) name = some body := by
      rw [lastBound_concat, Request.bound?, if_pos rfl, Option.some_or]
    have hother : ∀ other ∈ env.functions.map (·.name), other ≠ name →
        lastBound (reqs ++ [.bind name body]) other = lastBound reqs other := by
      intro other _ hne
      rw [lastBound_concat, Request.bound?, if_neg (Ne.symm hne), Option.none_or]
    rw [← set_slots henv.functions_nodup ((henv.functionId_iff name id).1 hid) hother, hlast, h.functions]
  | @write name value id _ hid hr =>
    have hname := (henv.resolveGlobal_iff name id).1 hid
    obtain ⟨hwritten, hnone⟩ := written?_of_write hname hr
    refine ⟨h.functions_same fun _ _ => ?_, ?_⟩
    · rcases hr with rfl | rfl <;> rfl
    have hlast : lastWritten env (reqs ++ [r]) name = value := by
      rw [lastWritten_concat, hwritten, Option.getD_some]
    have hother : ∀ other ∈ env.globals, other ≠ name →
        lastWritten env (reqs ++ [r]) other = lastWritten env reqs other := by
      intro other _ hne
      rw [lastWritten_concat, hnone other hne, Option.getD_none]
    rw [← set_slots henv.globals_nodup hname hother, hlast, h.globals]
  | load id value => exact ⟨h.functions_same fun _ _ => rfl, h.globals_same fun _ _ => rfl⟩
  | call id args value world => exact ⟨h.functions_same fun _ _ => rfl, h.globals_same fun _ _ => rfl⟩
  | failed fault hbound hwritten =>
    refine ⟨h.functions_same fun name hname => ?_, h.globals_same fun name hname => ?_⟩
    · obtain ⟨id, hid⟩ := List.mem_iff_getElem?.1 hname
      exact hbound name id ((henv.functionId_iff name id).2 hid)
    · obtain ⟨id, hid⟩ := List.mem_iff_getElem?.1 hname
      exact hwritten name id ((henv.resolveGlobal_iff name id).2 hid)

theorem tracks_ofEnvironment (env : Environment) (world : σ) : (ofEnvironment env world).Tracks env [] := by
  refine ⟨?_, rfl⟩
  rw [ofEnvironment, slots, List.map_map]
  rfl

theorem tracks_performAll (henv : env.Coherent rs) (world : σ) (reqs : List (Request σ)) :
    ((ofEnvironment env world).performAll reqs).Tracks env reqs := by
  induction reqs using List.reverseRecOn with
  | nil => exact tracks_ofEnvironment env world
  | append_singleton reqs r ih =>
    rw [performAll, List.foldl_append]
    exact ih.perform henv r

/-- The answers, and what each request leaves alone. -/
structure Coherent (b : Bindings σ) (env : Environment) (reqs : List (Request σ)) : Prop extends
    b.Answers env reqs where
  /-- The only function that changes is the one whose name is bound. -/
  functions_frame : ∀ r i, (b.perform r).2.functions[i]? ≠ b.functions[i]? →
    ∃ name body, r = .bind name body ∧ env.functionId? name = some i
  /-- The only global that changes is the one whose name or id is written. -/
  globals_frame : ∀ r i, (b.perform r).2.globals[i]? ≠ b.globals[i]? →
    ∃ name value, env.resolveGlobal? name = some i ∧ (r = .setGlobal name value ∨ r = .storeGlobal i value)
  world_frame : ∀ r, (b.perform r).2.world ≠ b.world → ∃ id args, r = .callExternal id args
  failed : ∀ r fault, (b.perform r).1 = .error fault → (b.perform r).2 = b

theorem Tracks.coherent (h : b.Tracks env reqs) (henv : env.Coherent rs) : b.Coherent env reqs := by
  have hanswers := h.answers henv
  have heffect := hanswers.effect henv
  exact ⟨hanswers, fun r i => (heffect r).functions_frame, fun r i => (heffect r).globals_frame,
    fun r => (heffect r).world_frame, fun r fault => (heffect r).unchanged⟩

theorem coherent_performAll (henv : env.Coherent rs) (world : σ) (reqs : List (Request σ)) :
    ((ofEnvironment env world).performAll reqs).Coherent env reqs :=
  (tracks_performAll henv world reqs).coherent henv

end Bindings

end Wordlang
