import Wordlang.Proofs.Environment.Registration

/-!
# The registry behind an environment: `function_index`, `global_index`

An environment is kept as two vectors, each with an index from names to positions, and an id is a position. A
registration looks the name up in the index, then writes to the vector or grows both. The index is never searched
for in the vector, so that the two agree has to be an invariant: it holds of the empty registry and every
registration keeps it, and under it the registry is the environment as a pair of lists.

Main statement: `Registry.implements_registerAll`.
-/

namespace Wordlang

/-! ## Vectors and indices -/

/-- An access behind the end of a vector. -/
structure OutOfRange where
  id : Nat

section Vector

variable {α : Type} {xs : Array α} {id : Nat} {x : α}

def fetch (xs : Array α) (id : Nat) : Except OutOfRange α :=
  match xs[id]? with
  | some x => .ok x
  | none => .error ⟨id⟩

def put (xs : Array α) (id : Nat) (x : α) : Except OutOfRange (Array α) :=
  if id < xs.size then .ok (xs.setIfInBounds id x) else .error ⟨id⟩

theorem fetch_eq (h : xs.toList[id]? = some x) : fetch xs id = .ok x := by
  rw [Array.getElem?_toList] at h
  rw [fetch, h]

theorem put_eq (h : id < xs.size) (x : α) : put xs id x = .ok (xs.setIfInBounds id x) := if_pos h

end Vector

section Index

variable {index : Std.HashMap String Nat} {names : List String} {name : String} {id : Nat}

/-- The index finds each name where it stands first, and no other name. -/
def Indexes (index : Std.HashMap String Nat) (names : List String) : Prop :=
  ∀ name, index[name]? = names.idxOf? name

theorem Indexes.empty : Indexes {} [] := fun _ => Std.HashMap.getElem?_empty

/-- A new name gets the position behind all others. -/
theorem Indexes.push (h : Indexes index names) (hnew : names.idxOf? name = none) :
    Indexes (index.insert name names.length) (names ++ [name]) := by
  intro other
  rw [Std.HashMap.getElem?_insert, h other]
  simp only [List.idxOf?, List.findIdx?_append] at hnew ⊢
  by_cases hother : name = other
  · subst hother
    simp [hnew]
  · simp [hother]

theorem Indexes.getElem? (h : Indexes index names) (hid : index[name]? = some id) : names[id]? = some name := by
  rw [h name, List.idxOf?_eq_some_iff] at hid
  obtain ⟨hlt, hname, -⟩ := hid
  rw [List.getElem?_eq_getElem hlt, hname]

theorem Indexes.lt_length (h : Indexes index names) (hid : index[name]? = some id) : id < names.length :=
  (List.getElem?_eq_some_iff.1 (h.getElem? hid)).1

end Index

/-! ## The registry -/

structure Registry where
  functions : Array External := #[]
  functionIndex : Std.HashMap String Nat := {}
  globals : Array String := #[]
  globalIndex : Std.HashMap String Nat := {}

namespace Registry

/-- Registers a function. A known name keeps its id, under which it gets a new descriptor. -/
def function (t : Registry) (f : External) : Except OutOfRange (Nat × Registry) :=
  match t.functionIndex[f.name]? with
  | some id => do
    let functions ← put t.functions id f
    return (id, { t with functions })
  | none =>
    let id := t.functions.size
    return (id, { t with
      functions := t.functions.push f
      functionIndex := t.functionIndex.insert f.name id })

/-- Registers a global, once for each name. -/
def global (t : Registry) (name : String) : Nat × Registry :=
  match t.globalIndex[name]? with
  | some id => (id, t)
  | none =>
    let id := t.globals.size
    (id, { t with
      globals := t.globals.push name
      globalIndex := t.globalIndex.insert name id })

def register (t : Registry) : Registration → Except OutOfRange (Nat × Registry)
  | .function f => t.function f
  | .global name => .ok (t.global name)

def registerAll (rs : List Registration) : Except OutOfRange Registry :=
  rs.foldlM (fun t r => Prod.snd <$> t.register r) {}

def resolveFunction (t : Registry) (name : String) (argc : Nat) : Except OutOfRange (Option (Nat × External)) :=
  match t.functionIndex[name]? with
  | some id => do
    let f ← fetch t.functions id
    return if f.arity = argc then some (id, f) else none
  | none => return none

def resolveGlobal? (t : Registry) (name : String) : Option Nat := t.globalIndex[name]?

def globalName? (t : Registry) (id : Nat) : Option String := t.globals[id]?

/-- The vectors as lists, without the indices. -/
def toEnvironment (t : Registry) : Environment := ⟨t.functions.toList, t.globals.toList⟩

/-- Each index agrees with its vector. -/
structure Aligned (t : Registry) : Prop where
  functionIndex : Indexes t.functionIndex (t.functions.toList.map (·.name))
  globalIndex : Indexes t.globalIndex t.globals.toList

variable {t : Registry}

namespace Aligned

theorem empty : Aligned {} := ⟨.empty, .empty⟩

theorem functionId?_eq (h : t.Aligned) (name : String) :
    t.toEnvironment.functionId? name = t.functionIndex[name]? :=
  (t.toEnvironment.functionId?_eq_idxOf? name).trans (h.functionIndex name).symm

theorem resolveGlobal?_eq (h : t.Aligned) (name : String) :
    t.toEnvironment.resolveGlobal? name = t.globalIndex[name]? := (h.globalIndex name).symm

/-- One registration: it gives the id that the environment gives, and index and vector still agree. -/
theorem register (h : t.Aligned) (r : Registration) :
    ∃ t', t.register r = .ok ((t.toEnvironment.register r).1, t') ∧
      t'.toEnvironment = (t.toEnvironment.register r).2 ∧ t'.Aligned := by
  cases r with
  | function f =>
    have hid := h.functionId?_eq f.name
    cases hf : t.functionIndex[f.name]? with
    | some id =>
      have hname := h.functionIndex.getElem? hf
      have hlt : id < t.functions.size := by simpa using h.functionIndex.lt_length hf
      rw [Environment.register_known (hid.trans hf)]
      refine ⟨{ t with functions := t.functions.setIfInBounds id f }, ?_, ?_, ?_, h.globalIndex⟩
      · simp only [Registry.register, Registry.function, hf, put_eq hlt]
        rfl
      · simp only [toEnvironment, Array.toList_setIfInBounds]
      · -- the descriptor goes where its own name stands, so the names are what they were
        obtain ⟨_, hname⟩ := List.getElem?_eq_some_iff.1 hname
        simp only [Array.toList_setIfInBounds, List.map_set, ← hname, List.set_getElem_self]
        exact h.functionIndex
    | none =>
      rw [Environment.register_new (hid.trans hf)]
      refine ⟨{ t with
        functions := t.functions.push f
        functionIndex := t.functionIndex.insert f.name t.functions.size }, ?_, ?_, ?_, h.globalIndex⟩
      · simp only [Registry.register, Registry.function, hf]
        rfl
      · simp only [toEnvironment, Array.toList_push]
      · have hpush := h.functionIndex.push ((h.functionIndex f.name).symm.trans hf)
        simpa using hpush
  | global name =>
    have hid := h.resolveGlobal?_eq name
    cases hg : t.globalIndex[name]? with
    | some id =>
      rw [Environment.register_knownGlobal (hid.trans hg)]
      exact ⟨t, by simp only [Registry.register, Registry.global, hg], rfl, h⟩
    | none =>
      rw [Environment.register_newGlobal (hid.trans hg)]
      refine ⟨{ t with
        globals := t.globals.push name
        globalIndex := t.globalIndex.insert name t.globals.size }, ?_, ?_, h.functionIndex, ?_⟩
      · simp only [Registry.register, Registry.global, hg]
        rfl
      · simp only [toEnvironment, Array.toList_push]
      · have hpush := h.globalIndex.push ((h.globalIndex name).symm.trans hg)
        simpa using hpush

theorem resolveFunction_eq (h : t.Aligned) (name : String) (argc : Nat) :
    t.resolveFunction name argc = .ok (t.toEnvironment.resolveFunction? name argc) := by
  rw [Environment.resolveFunction?, h.functionId?_eq]
  cases hid : t.functionIndex[name]? with
  | none => simp only [resolveFunction, hid]; rfl
  | some id =>
    have hlt : id < t.functions.toList.length := by simpa using h.functionIndex.lt_length hid
    have hf := List.getElem?_eq_getElem hlt
    simp only [resolveFunction, hid, fetch_eq hf]
    simp only [toEnvironment, Option.bind_eq_bind, Option.bind_some, hf]
    rfl

end Aligned

/-- The registry answers as the environment does and never reads or writes out of range. -/
structure Implements (t : Registry) (env : Environment) : Prop extends t.Aligned where
  toEnvironment_eq : t.toEnvironment = env
  register : ∀ r, ∃ t', t.register r = .ok ((env.register r).1, t') ∧ t'.toEnvironment = (env.register r).2
  resolveFunction : ∀ name argc, t.resolveFunction name argc = .ok (env.resolveFunction? name argc)
  resolveGlobal : ∀ name, t.resolveGlobal? name = env.resolveGlobal? name
  globalName : ∀ id, t.globalName? id = env.globalName? id

theorem Aligned.implements (h : t.Aligned) : t.Implements t.toEnvironment := by
  refine ⟨h, rfl, fun r => ?_, h.resolveFunction_eq, fun name => (h.resolveGlobal?_eq name).symm, fun id => ?_⟩
  · obtain ⟨t', ht, henv, -⟩ := h.register r
    exact ⟨t', ht, henv⟩
  · exact Array.getElem?_toList.symm

theorem registerAll_concat (rs : List Registration) (r : Registration) :
    registerAll (rs ++ [r]) = (do Prod.snd <$> (← registerAll rs).register r) := by
  simp only [registerAll, List.foldlM_append, List.foldlM_cons, List.foldlM_nil, bind_pure]

/-- All registrations, from the empty registry. -/
theorem implements_registerAll (rs : List Registration) :
    ∃ t, registerAll rs = .ok t ∧ t.Implements (.ofRegistrations rs) := by
  suffices h : ∃ t, registerAll rs = .ok t ∧ t.toEnvironment = .ofRegistrations rs ∧ t.Aligned by
    obtain ⟨t, ht, henv, haligned⟩ := h
    exact ⟨t, ht, henv ▸ haligned.implements⟩
  induction rs using List.reverseRecOn with
  | nil => exact ⟨{}, rfl, rfl, .empty⟩
  | append_singleton rs r ih =>
    obtain ⟨t, ht, henv, haligned⟩ := ih
    obtain ⟨t', ht', henv', haligned'⟩ := haligned.register r
    refine ⟨t', ?_, ?_, haligned'⟩
    · rw [registerAll_concat, ht]
      exact congrArg (Prod.snd <$> ·) ht'
    · rw [henv', henv, Environment.ofRegistrations_concat]

end Registry

end Wordlang
