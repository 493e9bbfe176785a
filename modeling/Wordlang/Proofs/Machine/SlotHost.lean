import Wordlang.Proofs.Environment.Registry
import Wordlang.Proofs.Machine.Slots

/-!
# The host behind bindings

Bindings are kept as three containers for the functions and three for the globals: a vector of names, an index from
names to ids, and a vector of slots. A request by name goes through the index, one by id goes to the slots, and the
names are read only to tell which function is not bound. That the three agree is an invariant of every request,
and under it the host is the bindings as two lists of slots with their names.

Main statement: `Environment.slots_coherent`.
-/

namespace Wordlang

/-! ## Slots with names -/

section Table

variable {α : Type} {names : Array String} {index : Std.HashMap String Nat} {values : Array α} {name : String}
  {id : Nat}

/-- Slots beside their names. -/
def entries (names : Array String) (values : Array α) : List (String × α) := names.toList.zip values.toList

/-- There is a slot for each name, and the index finds the names. -/
structure Tabled (names : Array String) (index : Std.HashMap String Nat) (values : Array α) : Prop where
  size_eq : values.size = names.size
  indexes : Indexes index names.toList

theorem lookup_eq_findIdx? (slots : List (String × α)) (name : String) :
    slots.lookup name = (slots.findIdx? (·.1 == name)).bind fun id => slots[id]?.map (·.2) := by
  induction slots with
  | nil => rfl
  | cons slot slots ih =>
    rw [List.lookup_cons, List.findIdx?_cons, ih]
    by_cases h : slot.1 = name
    · simp [h]
    · rw [beq_false_of_ne h, beq_false_of_ne (Ne.symm h)]
      cases slots.findIdx? (·.1 == name) <;> rfl

namespace Tabled

theorem map_fst_entries (h : Tabled names index values) : (entries names values).map (·.1) = names.toList :=
  List.map_fst_zip (by simp [h.size_eq])

theorem findIdx?_eq (h : Tabled names index values) (name : String) :
    (entries names values).findIdx? (·.1 == name) = index[name]? := by
  rw [h.indexes name, ← h.map_fst_entries, List.idxOf?, List.findIdx?_map]
  rfl

/-- An id leads to a slot with its name, or nowhere. -/
theorem slot_cases (h : Tabled names index values) (id : Nat) :
    (∃ name value, names.toList[id]? = some name ∧ values[id]? = some value ∧
      (entries names values)[id]? = some (name, value)) ∨
    values[id]? = none ∧ (entries names values)[id]? = none := by
  by_cases hid : id < names.size
  · have hlt : id < names.toList.length := by rwa [Array.length_toList]
    have hname := List.getElem?_eq_getElem hlt
    have hvalue := Array.getElem?_eq_getElem (h.size_eq ▸ hid)
    exact .inl ⟨_, _, hname, hvalue, List.getElem?_zip_eq_some.2 ⟨hname, Array.getElem?_toList.trans hvalue⟩⟩
  · have hvalue : values.size ≤ id := h.size_eq ▸ Nat.le_of_not_lt hid
    exact .inr ⟨Array.getElem?_eq_none hvalue, List.getElem?_eq_none (by simpa [entries, ← h.size_eq] using hvalue)⟩

/-- To write into a slot is to write beside its name. -/
theorem entries_set (hid : names.toList[id]? = some name) (value : α) :
    entries names (values.setIfInBounds id value) = (entries names values).set id (name, value) := by
  obtain ⟨hlt, hname⟩ := List.getElem?_eq_some_iff.1 hid
  rw [entries, entries, Array.toList_setIfInBounds, ← hname]
  refine List.ext_getElem (by simp) fun i hi _ => ?_
  simp only [List.getElem_zip, List.getElem_set]
  split
  · rename_i h
    simp [h]
  · rfl

theorem set (h : Tabled names index values) (id : Nat) (value : α) :
    Tabled names index (values.setIfInBounds id value) :=
  ⟨by rw [Array.size_setIfInBounds, h.size_eq], h.indexes⟩

theorem lt_size (h : Tabled names index values) (hid : index[name]? = some id) : id < values.size := by
  simpa [h.size_eq] using h.indexes.lt_length hid

/-- A write through the index is in range and goes beside the name that was looked up. -/
theorem put_indexed (h : Tabled names index values) (hid : index[name]? = some id) (value : α) :
    ∃ values', put values id value = .ok values' ∧
      entries names values' = (entries names values).set id (name, value) ∧ Tabled names index values' :=
  ⟨values.setIfInBounds id value, put_eq (h.lt_size hid) value, entries_set (h.indexes.getElem? hid) value,
    h.set id value⟩

end Tabled

end Table

/-! ## The host -/

structure SlotHost (σ : Type) where
  functionNames : Array String
  functionIndex : Std.HashMap String Nat
  functions : Array (Option (ExternalBody σ))
  globalNames : Array String
  globalIndex : Std.HashMap String Nat
  globals : Array Word
  world : σ

namespace SlotHost

open Bindings (Request Reply)

variable {σ : Type}

/-- Enters a name under an id, behind the names so far. -/
def enter (table : Array String × Std.HashMap String Nat) (entry : String × Nat) :
    Array String × Std.HashMap String Nat :=
  (table.1.push entry.1, table.2.insert entry.1 entry.2)

/-- Nothing bound and all globals zero. -/
def ofRegistry (t : Registry) (world : σ) : SlotHost σ :=
  let functions := (t.functions.toList.zipIdx.map fun (f, id) => (f.name, id)).foldl enter (#[], {})
  let globals := ((List.range t.globals.size).map fun id => ((t.globalName? id).getD "", id)).foldl enter (#[], {})
  { functionNames := functions.1
    functionIndex := functions.2
    functions := functions.1.map fun _ => none
    globalNames := globals.1
    globalIndex := globals.2
    globals := Array.replicate globals.1.size 0
    world }

def bind (h : SlotHost σ) (name : String) (body : ExternalBody σ) :
    Except OutOfRange (Except Fault Nat × SlotHost σ) :=
  match h.functionIndex[name]? with
  | some id => do
    let functions ← put h.functions id (some body)
    return (.ok id, { h with functions })
  | none => return (.error (.undeclaredExternal name), h)

def setGlobal (h : SlotHost σ) (name : String) (value : Word) :
    Except OutOfRange (Except Fault Unit × SlotHost σ) :=
  match h.globalIndex[name]? with
  | some id => do
    let globals ← put h.globals id value
    return (.ok (), { h with globals })
  | none => return (.error (.undeclaredGlobal name), h)

def global? (h : SlotHost σ) (name : String) : Except OutOfRange (Option Word) :=
  match h.globalIndex[name]? with
  | some id => some <$> fetch h.globals id
  | none => return none

def callExternal (h : SlotHost σ) (id : Nat) (args : List Word) :
    Except OutOfRange (Except Fault Word × SlotHost σ) :=
  match h.functions[id]? with
  | some (some body) =>
    let (value, world) := body args h.world
    return (.ok value, { h with world })
  | some none => do
    let name ← fetch h.functionNames id
    return (.error (.unboundExternal name), h)
  | none => return (.error (.unboundExternal (Bindings.idText id)), h)

def loadGlobal (h : SlotHost σ) (id : Nat) : Except Fault Word × SlotHost σ :=
  match h.globals[id]? with
  | some value => (.ok value, h)
  | none => (.error (.undeclaredGlobal (Bindings.idText id)), h)

def storeGlobal (h : SlotHost σ) (id : Nat) (value : Word) : Except Fault Unit × SlotHost σ :=
  if id < h.globals.size then (.ok (), { h with globals := h.globals.setIfInBounds id value })
  else (.error (.undeclaredGlobal (Bindings.idText id)), h)

/-- What a request gives, and the host behind it. -/
def perform (h : SlotHost σ) : Request σ → Except OutOfRange (Except Fault Reply × SlotHost σ)
  | .bind name body => Reply.ofOutcome .id <$> h.bind name body
  | .setGlobal name value => Reply.ofOutcome (fun _ => .done) <$> h.setGlobal name value
  | .storeGlobal id value => return Reply.ofOutcome (fun _ => .done) (h.storeGlobal id value)
  | .loadGlobal id => return Reply.ofOutcome .value (h.loadGlobal id)
  | .callExternal id args => Reply.ofOutcome .value <$> h.callExternal id args

def performAll (h : SlotHost σ) (reqs : List (Request σ)) : Except OutOfRange (SlotHost σ) :=
  reqs.foldlM (fun h r => Prod.snd <$> h.perform r) h

/-- The slots with their names, without the indices. -/
def toBindings (h : SlotHost σ) : Bindings σ :=
  ⟨entries h.functionNames h.functions, entries h.globalNames h.globals, h.world⟩

/-- Names, index and slots agree, for functions and for globals. -/
structure Aligned (h : SlotHost σ) : Prop where
  functions : Tabled h.functionNames h.functionIndex h.functions
  globals : Tabled h.globalNames h.globalIndex h.globals

variable {h : SlotHost σ}

/-- The host gives what the bindings give, goes on in step with them, and does not read or write out of range. -/
def Agrees (x : Except OutOfRange (Except Fault Reply × SlotHost σ)) (y : Except Fault Reply × Bindings σ) : Prop :=
  ∃ h', x = .ok (y.1, h') ∧ h'.toBindings = y.2 ∧ h'.Aligned

namespace Aligned

theorem bind (ha : h.Aligned) (name : String) (body : ExternalBody σ) :
    Agrees (h.perform (.bind name body)) (h.toBindings.perform (.bind name body)) := by
  have hfind := ha.functions.findIdx?_eq name
  cases hid : h.functionIndex[name]? with
  | some id =>
    obtain ⟨functions, hput, hentries, htabled⟩ := ha.functions.put_indexed hid (some body)
    simp only [perform, SlotHost.bind, hid, hput, Bindings.perform, Bindings.bind, toBindings, hfind]
    refine ⟨{ h with functions }, rfl, ?_, htabled, ha.globals⟩
    rw [toBindings, hentries]
  | none =>
    simp only [perform, SlotHost.bind, hid, Bindings.perform, Bindings.bind, toBindings, hfind]
    exact ⟨h, rfl, rfl, ha⟩

theorem setGlobal (ha : h.Aligned) (name : String) (value : Word) :
    Agrees (h.perform (.setGlobal name value)) (h.toBindings.perform (.setGlobal name value)) := by
  have hfind := ha.globals.findIdx?_eq name
  cases hid : h.globalIndex[name]? with
  | some id =>
    obtain ⟨globals, hput, hentries, htabled⟩ := ha.globals.put_indexed hid value
    simp only [perform, SlotHost.setGlobal, hid, hput, Bindings.perform, Bindings.setGlobal, toBindings, hfind]
    refine ⟨{ h with globals }, rfl, ?_, ha.functions, htabled⟩
    rw [toBindings, hentries]
  | none =>
    simp only [perform, SlotHost.setGlobal, hid, Bindings.perform, Bindings.setGlobal, toBindings, hfind]
    exact ⟨h, rfl, rfl, ha⟩

theorem storeGlobal (ha : h.Aligned) (id : Nat) (value : Word) :
    Agrees (h.perform (.storeGlobal id value)) (h.toBindings.perform (.storeGlobal id value)) := by
  obtain ⟨name, old, hname, hold, hslot⟩ | ⟨hnone, hslot⟩ := ha.globals.slot_cases id
  · have hlt : id < h.globals.size := (Array.getElem?_eq_some_iff.1 hold).1
    simp only [perform, SlotHost.storeGlobal, if_pos hlt, Bindings.perform, Bindings.storeGlobal, toBindings, hslot]
    refine ⟨{ h with globals := h.globals.setIfInBounds id value }, rfl, ?_, ha.functions, ha.globals.set _ _⟩
    simp only [toBindings, Tabled.entries_set hname, Reply.ofOutcome]
  · have hlt : ¬ id < h.globals.size := Nat.not_lt.2 (Array.getElem?_eq_none_iff.1 hnone)
    simp only [perform, SlotHost.storeGlobal, if_neg hlt, Bindings.perform, Bindings.storeGlobal, toBindings, hslot]
    exact ⟨h, rfl, rfl, ha⟩

theorem loadGlobal (ha : h.Aligned) (id : Nat) :
    Agrees (h.perform (.loadGlobal id)) (h.toBindings.perform (.loadGlobal id)) := by
  obtain ⟨name, value, -, hvalue, hslot⟩ | ⟨hvalue, hslot⟩ := ha.globals.slot_cases id <;>
  · simp only [perform, SlotHost.loadGlobal, hvalue, Bindings.perform, Bindings.loadGlobal, toBindings, hslot]
    exact ⟨h, rfl, rfl, ha⟩

theorem callExternal (ha : h.Aligned) (id : Nat) (args : List Word) :
    Agrees (h.perform (.callExternal id args)) (h.toBindings.perform (.callExternal id args)) := by
  obtain ⟨name, body, hname, hbody, hslot⟩ | ⟨hbody, hslot⟩ := ha.functions.slot_cases id
  · cases body with
    | some body =>
      simp only [perform, SlotHost.callExternal, hbody, Bindings.perform, Bindings.callExternal, toBindings, hslot]
      exact ⟨{ h with world := (body args h.world).2 }, rfl, rfl, ha.functions, ha.globals⟩
    | none =>
      simp only [perform, SlotHost.callExternal, hbody, fetch_eq hname, Bindings.perform, Bindings.callExternal,
        toBindings, hslot]
      exact ⟨h, rfl, rfl, ha⟩
  · simp only [perform, SlotHost.callExternal, hbody, Bindings.perform, Bindings.callExternal, toBindings, hslot]
    exact ⟨h, rfl, rfl, ha⟩

/-- One request. -/
theorem perform (ha : h.Aligned) (r : Request σ) : Agrees (h.perform r) (h.toBindings.perform r) := by
  cases r with
  | bind name body => exact ha.bind name body
  | setGlobal name value => exact ha.setGlobal name value
  | storeGlobal id value => exact ha.storeGlobal id value
  | loadGlobal id => exact ha.loadGlobal id
  | callExternal id args => exact ha.callExternal id args

theorem global?_eq (ha : h.Aligned) (name : String) : h.global? name = .ok (h.toBindings.global? name) := by
  rw [Bindings.global?, toBindings, lookup_eq_findIdx?, ha.globals.findIdx?_eq]
  cases hid : h.globalIndex[name]? with
  | none => simp only [SlotHost.global?, hid]; rfl
  | some id =>
    obtain ⟨_, value, -, hvalue, hslot⟩ | ⟨hnone, -⟩ := ha.globals.slot_cases id
    · simp only [SlotHost.global?, hid, fetch, hvalue, Option.bind_some, hslot]
      rfl
    · exact absurd (ha.globals.lt_size hid) (Nat.not_lt.2 (Array.getElem?_eq_none_iff.1 hnone))

end Aligned

/-! ## The host of a registry -/

/-- Names that are entered in a row get their positions as ids. -/
theorem foldl_enter {names : List String} (hnodup : names.Nodup) :
    (names.zipIdx.foldl enter (#[], {})).1 = names.toArray ∧
    Indexes (names.zipIdx.foldl enter (#[], {})).2 names := by
  induction names using List.reverseRecOn with
  | nil => exact ⟨rfl, .empty⟩
  | append_singleton names name ih =>
    have hnew : names.idxOf? name = none := by
      rw [List.idxOf?_eq_none_iff]
      intro hmem
      exact (List.nodup_append.1 hnodup).2.2 name hmem name (List.mem_singleton_self name) rfl
    obtain ⟨hnames, hindex⟩ := ih (List.nodup_append.1 hnodup).1
    simp only [List.zipIdx_append, List.foldl_append, List.zipIdx_singleton, List.foldl_cons, List.foldl_nil,
      Nat.zero_add, enter]
    exact ⟨by rw [hnames, List.push_toArray], hindex.push hnew⟩

theorem ofRegistry_eq (t : Registry) (world : σ) :
    let functions := (t.functions.toList.map (·.name)).zipIdx.foldl enter (#[], {})
    let globals := t.globals.toList.zipIdx.foldl enter (#[], {})
    ofRegistry t world = ⟨functions.1, functions.2, functions.1.map fun _ => none, globals.1, globals.2,
      Array.replicate globals.1.size 0, world⟩ := by
  have hfunctions : (t.functions.toList.zipIdx.map fun (f, id) => (f.name, id)) =
      (t.functions.toList.map (·.name)).zipIdx := by
    rw [List.zipIdx_map]
    rfl
  have hglobals : ((List.range t.globals.size).map fun id => ((t.globalName? id).getD "", id)) =
      t.globals.toList.zipIdx := by
    refine List.ext_getElem (by simp) fun id hid _ => ?_
    have hlt : id < t.globals.size := by simpa using hid
    simp [Registry.globalName?, hlt]
  simp only [ofRegistry, hfunctions, hglobals]

/-- The new host of a registry whose names are distinct. -/
theorem aligned_ofRegistry {t : Registry} (hfunctions : (t.functions.toList.map (·.name)).Nodup)
    (hglobals : t.globals.toList.Nodup) (world : σ) :
    (ofRegistry t world).toBindings = .ofEnvironment t.toEnvironment world ∧ (ofRegistry t world).Aligned := by
  obtain ⟨hnames, hindex⟩ := foldl_enter hfunctions
  obtain ⟨hnames', hindex'⟩ := foldl_enter hglobals
  rw [ofRegistry_eq]
  refine ⟨?_, ⟨by simp, by simpa [hnames] using hindex⟩, ⟨by simp, by simpa [hnames'] using hindex'⟩⟩
  simp only [toBindings, hnames, hnames', Bindings.ofEnvironment, Registry.toEnvironment, entries]
  congr 1
  · exact List.ext_getElem (by simp) fun i _ _ => by simp
  · exact List.ext_getElem (by simp) fun i _ _ => by simp

/-- All requests, one after another. -/
theorem Aligned.performAll : ∀ {h : SlotHost σ} (_ : h.Aligned) (reqs : List (Request σ)),
    ∃ h', h.performAll reqs = .ok h' ∧ h'.toBindings = h.toBindings.performAll reqs ∧ h'.Aligned
  | h, ha, [] => ⟨h, rfl, rfl, ha⟩
  | h, ha, r :: reqs => by
    obtain ⟨h', hr, hb, ha'⟩ := ha.perform r
    obtain ⟨h'', hreqs, hb', ha''⟩ := ha'.performAll reqs
    refine ⟨h'', ?_, ?_, ha''⟩
    · rw [SlotHost.performAll, List.foldlM_cons, hr]
      exact hreqs
    · rw [hb', hb]
      rfl

/-- A request that fails leaves all containers as they are. -/
theorem perform_failed {r : Request σ} {fault : Fault} {h' : SlotHost σ}
    (hr : h.perform r = .ok (.error fault, h')) : h' = h := by
  cases r with
  | bind name body =>
    simp only [perform, SlotHost.bind, put] at hr
    split at hr
    · split at hr <;> cases hr
    · cases hr
      rfl
  | setGlobal name value =>
    simp only [perform, SlotHost.setGlobal, put] at hr
    split at hr
    · split at hr <;> cases hr
    · cases hr
      rfl
  | storeGlobal id value =>
    simp only [perform, SlotHost.storeGlobal] at hr
    split at hr <;> cases hr
    rfl
  | loadGlobal id =>
    simp only [perform, SlotHost.loadGlobal] at hr
    split at hr <;> cases hr
    rfl
  | callExternal id args =>
    simp only [perform, SlotHost.callExternal, fetch] at hr
    split at hr
    · cases hr
    · split at hr <;> cases hr
      rfl
    · cases hr
      rfl

/-- The host answers as the bindings do and never reads or writes out of range. -/
structure Implements (h : SlotHost σ) (b : Bindings σ) : Prop extends h.Aligned where
  toBindings_eq : h.toBindings = b
  perform : ∀ r, ∃ h', h.perform r = .ok ((b.perform r).1, h') ∧ h'.toBindings = (b.perform r).2
  global : ∀ name, h.global? name = .ok (b.global? name)
  failed : ∀ r fault h', h.perform r = .ok (.error fault, h') → h' = h

theorem Aligned.implements (ha : h.Aligned) : h.Implements h.toBindings := by
  refine ⟨ha, rfl, fun r => ?_, ha.global?_eq, fun r fault h' hr => perform_failed hr⟩
  obtain ⟨h', hr, hb, -⟩ := ha.perform r
  exact ⟨h', hr, hb⟩

theorem implements_performAll {t : Registry} {env : Environment} {rs : List Registration} (ht : t.Implements env)
    (henv : env.Coherent rs) (world : σ) (reqs : List (Request σ)) :
    ∃ h, (ofRegistry t world).performAll reqs = .ok h ∧
      h.Implements ((Bindings.ofEnvironment env world).performAll reqs) := by
  obtain rfl := ht.toEnvironment_eq
  obtain ⟨hnew, haligned⟩ := aligned_ofRegistry henv.functions_nodup henv.globals_nodup world
  obtain ⟨h, hrun, hb, ha⟩ := haligned.performAll reqs
  refine ⟨h, hrun, ?_⟩
  rw [← hnew, ← hb]
  exact ha.implements

end SlotHost

/-- After any registrations, names and ids stand for each other as the order of registration says. The bindings
made for that environment then answer each request by name or by id from the slot that both stand for. The vectors
and indices of the registry and of its host stay aligned in all this and answer the same. -/
theorem Environment.slots_coherent (rs : List Registration) :
    (ofRegistrations rs).Coherent rs ∧
    (∀ {σ : Type} (world : σ) (reqs : List (Bindings.Request σ)),
      ((Bindings.ofEnvironment (ofRegistrations rs) world).performAll reqs).Coherent (ofRegistrations rs) reqs) ∧
    ∃ t, Registry.registerAll rs = .ok t ∧ t.Implements (ofRegistrations rs) ∧
      ∀ {σ : Type} (world : σ) (reqs : List (Bindings.Request σ)),
        ∃ h, (SlotHost.ofRegistry t world).performAll reqs = .ok h ∧
          h.Implements ((Bindings.ofEnvironment (ofRegistrations rs) world).performAll reqs) := by
  have henv := coherent_ofRegistrations rs
  obtain ⟨t, hrun, ht⟩ := Registry.implements_registerAll rs
  exact ⟨henv, fun world reqs => Bindings.coherent_performAll henv world reqs, t, hrun, ht,
    fun world reqs => SlotHost.implements_performAll ht henv world reqs⟩

end Wordlang
