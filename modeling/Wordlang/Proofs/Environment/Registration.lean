import Mathlib.Data.List.Induction
import Mathlib.Data.List.Nodup
import Wordlang.Environment

/-!
# What registrations leave behind

An environment counts names in the order of their first registration and keeps what was told last of each
function. Both are equations here: the tables of the environment are computed from the list of registrations.
-/

namespace Wordlang

/-! ## Tables by name -/

section Table

variable {α β : Type} {names : List String} {name : String} {id : Nat}

/-- A value for each name, in the order of the names. -/
def slots (names : List String) (value : String → α) : List (String × α) :=
  names.map fun name => (name, value name)

/-- What the last element tells of those that tell something. -/
def latest (tells : α → Option β) (xs : List α) : Option β := (xs.filterMap tells).getLast?

theorem latest_concat (tells : α → Option β) (xs : List α) (x : α) :
    latest tells (xs ++ [x]) = (tells x).or (latest tells xs) := by
  unfold latest
  rw [List.filterMap_append, List.getLast?_append]
  cases h : tells x <;> simp [h]

theorem eraseDups_concat (names : List String) (name : String) : (names ++ [name]).eraseDups =
    if name ∈ names.eraseDups then names.eraseDups else names.eraseDups ++ [name] := by
  rw [List.eraseDups_append]
  by_cases h : name ∈ names <;> simp [List.removeAll, List.eraseDups_cons, h]

theorem nodup_eraseDups (names : List String) : names.eraseDups.Nodup := by
  induction names using List.reverseRecOn with
  | nil => simp
  | append_singleton names name ih =>
    rw [eraseDups_concat]
    split
    · exact ih
    · rename_i h
      rw [List.nodup_append]
      refine ⟨ih, by simp, ?_⟩
      rintro x hx y hy rfl
      rw [List.mem_singleton] at hy
      exact h (hy ▸ hx)

/-- In a list without repetitions, the position of a name is any place where it stands. -/
theorem idxOf?_eq_some_iff_getElem? (h : names.Nodup) : names.idxOf? name = some id ↔ names[id]? = some name := by
  rw [List.idxOf?_eq_some_iff, List.getElem?_eq_some_iff]
  constructor
  · rintro ⟨hlt, heq, -⟩
    exact ⟨hlt, heq⟩
  · rintro ⟨hlt, heq⟩
    refine ⟨hlt, heq, fun i hi hname => ?_⟩
    exact absurd (h.getElem_inj_iff.1 (hname.trans heq.symm)) (Nat.ne_of_lt hi)

theorem idxOf?_append {more : List String} (h : names.idxOf? name = some id) :
    (names ++ more).idxOf? name = some id := by
  rw [List.idxOf?] at h ⊢
  rw [List.findIdx?_append, h, Option.some_or]

variable {value value' : String → α}

theorem getElem?_slots (id : Nat) : (slots names value)[id]? = names[id]?.map fun name => (name, value name) :=
  List.getElem?_map

theorem findIdx?_slots : (slots names value).findIdx? (·.1 == name) = names.idxOf? name :=
  List.findIdx?_map

theorem lookup_slots : (slots names value).lookup name = if name ∈ names then some (value name) else none := by
  induction names with
  | nil => rfl
  | cons first names ih =>
    have hcons : slots (first :: names) value = (first, value first) :: slots names value := rfl
    rw [hcons, List.lookup_cons]
    by_cases h : name = first
    · simp [h]
    · rw [beq_false_of_ne h]
      simpa [h] using ih

theorem slots_congr (h : ∀ name ∈ names, value name = value' name) : slots names value = slots names value' :=
  List.map_congr_left fun name hname => by rw [h name hname]

theorem slots_append (names names' : List String) :
    slots (names ++ names') value = slots names value ++ slots names' value := List.map_append

/-- To write into one slot is to change the value of one name. -/
theorem set_slots (h : names.Nodup) (hid : names[id]? = some name)
    (hother : ∀ other ∈ names, other ≠ name → value' other = value other) :
    (slots names value).set id (name, value' name) = slots names value' := by
  refine List.ext_getElem? fun i => ?_
  obtain ⟨hlt, hname⟩ := List.getElem?_eq_some_iff.1 hid
  rw [List.getElem?_set, getElem?_slots, getElem?_slots]
  by_cases hi : id = i
  · subst hi
    rw [if_pos rfl, if_pos (by rwa [slots, List.length_map]), hid]
    rfl
  · rw [if_neg hi]
    cases hother' : names[i]? with
    | none => rfl
    | some other =>
      have hne : other ≠ name := by
        rintro rfl
        exact hi ((List.getElem?_inj hlt h).1 (hid.trans hother'.symm))
      rw [Option.map_some, Option.map_some, hother other (List.mem_of_getElem? hother') hne]

end Table

/-! ## Registrations -/

/-- What a host registers. -/
inductive Registration
  | function (external : External)
  | global (name : String)

namespace Registration

def functionName? : Registration → Option String
  | .function f => some f.name
  | .global _ => none

def globalName? : Registration → Option String
  | .function _ => none
  | .global name => some name

/-- What the registration tells of the function of a name. -/
def external? (name : String) : Registration → Option External
  | .function f => if f.name = name then some f else none
  | .global _ => none

/-- The names that registrations tell, in the order in which they are told first. -/
def names (tells : Registration → Option String) (rs : List Registration) : List String :=
  (rs.filterMap tells).eraseDups

section

variable {tells : Registration → Option String} {r : Registration} (rs : List Registration)

theorem names_nodup : (names tells rs).Nodup := nodup_eraseDups _

theorem names_concat {name : String} (h : tells r = some name) : names tells (rs ++ [r]) =
    if name ∈ names tells rs then names tells rs else names tells rs ++ [name] := by
  rw [names, List.filterMap_append, List.filterMap_cons_some h]
  exact eraseDups_concat _ name

theorem names_concat_none (h : tells r = none) : names tells (rs ++ [r]) = names tells rs := by
  rw [names, List.filterMap_append, List.filterMap_cons_none h, List.filterMap_nil, List.append_nil, names]

theorem names_append (rs' : List Registration) : ∃ more, names tells (rs ++ rs') = names tells rs ++ more :=
  ⟨_, by rw [names, List.filterMap_append, List.eraseDups_append, names]⟩

end

variable (rs : List Registration)

theorem latest_function (f : External) (name : String) : latest (external? name) (rs ++ [.function f]) =
    if f.name = name then some f else latest (external? name) rs := by
  rw [latest_concat, external?]
  split <;> rfl

theorem latest_global (other name : String) :
    latest (external? name) (rs ++ [.global other]) = latest (external? name) rs :=
  latest_concat (external? name) rs (.global other)

end Registration

namespace Environment

open Registration

def register (env : Environment) : Registration → Nat × Environment
  | .function f => env.declareFunction f.name f.arity f.kind
  | .global name => env.declareGlobal name

def ofRegistrations (rs : List Registration) : Environment := rs.foldl (fun env r => (env.register r).2) {}

/-- The id of the name that a registration is about. -/
def idOf? (env : Environment) : Registration → Option Nat
  | .function f => env.functionId? f.name
  | .global name => env.resolveGlobal? name

theorem functionId?_eq_idxOf? (env : Environment) (name : String) :
    env.functionId? name = (env.functions.map (·.name)).idxOf? name := by
  rw [List.idxOf?, List.findIdx?_map]
  rfl

/-- The environment holds the names that were registered, and what was told last of each function. -/
structure Registered (env : Environment) (rs : List Registration) : Prop where
  functions : env.functions.map (fun f => (f.name, some f)) =
    slots (names functionName? rs) fun name => latest (external? name) rs
  globals : env.globals = names Registration.globalName? rs

variable {env : Environment} {rs : List Registration} {r : Registration} {f : External} {name : String} {id : Nat}

theorem register_known (h : env.functionId? f.name = some id) :
    env.register (.function f) = (id, { env with functions := env.functions.set id f }) := by
  rw [register, declareFunction, h]

theorem register_new (h : env.functionId? f.name = none) :
    env.register (.function f) = (env.functions.length, { env with functions := env.functions ++ [f] }) := by
  rw [register, declareFunction, h]

theorem register_knownGlobal (h : env.resolveGlobal? name = some id) :
    env.register (.global name) = (id, env) := by
  rw [register, declareGlobal, h]

theorem register_newGlobal (h : env.resolveGlobal? name = none) :
    env.register (.global name) = (env.globals.length, { env with globals := env.globals ++ [name] }) := by
  rw [register, declareGlobal, h]

namespace Registered

theorem functionNames_eq (h : env.Registered rs) : env.functions.map (·.name) = names functionName? rs := by
  have hnames := congrArg (List.map (·.1)) h.functions
  simpa [slots, Function.comp_def] using hnames

theorem functionId?_eq (h : env.Registered rs) : env.functionId? name = (names functionName? rs).idxOf? name := by
  rw [functionId?_eq_idxOf?, h.functionNames_eq]

theorem resolveGlobal?_eq (h : env.Registered rs) :
    env.resolveGlobal? name = (names Registration.globalName? rs).idxOf? name := by
  rw [resolveGlobal?, h.globals]

theorem functionId?_iff (h : env.Registered rs) :
    env.functionId? name = some id ↔ (names functionName? rs)[id]? = some name := by
  rw [h.functionId?_eq, idxOf?_eq_some_iff_getElem? (names_nodup rs)]

theorem resolveGlobal?_iff (h : env.Registered rs) :
    env.resolveGlobal? name = some id ↔ env.globalName? id = some name := by
  rw [globalName?, h.resolveGlobal?_eq, h.globals, idxOf?_eq_some_iff_getElem? (names_nodup rs)]

theorem getElem? (h : env.Registered rs) (hf : env.functions[id]? = some f) :
    (names functionName? rs)[id]? = some f.name ∧ latest (external? f.name) rs = some f := by
  have hslot := congrArg (·[id]?) h.functions
  simp only [List.getElem?_map, hf, getElem?_slots, Option.map_some] at hslot
  obtain ⟨name, hname, heq⟩ := Option.map_eq_some_iff.1 hslot.symm
  obtain ⟨rfl, hlast⟩ := Prod.mk.inj heq
  exact ⟨hname, hlast⟩

theorem register_function (h : env.Registered rs) (f : External) :
    (env.register (.function f)).2.Registered (rs ++ [.function f]) := by
  have hlast : latest (external? f.name) (rs ++ [.function f]) = some f := by rw [latest_function, if_pos rfl]
  have hother : ∀ name ∈ names functionName? rs, name ≠ f.name →
      latest (external? name) (rs ++ [.function f]) = latest (external? name) rs := by
    intro name _ hne
    rw [latest_function, if_neg (Ne.symm hne)]
  -- a known name keeps its slot, a new one gets the slot behind all others
  cases hid : env.functionId? f.name with
  | some id =>
    rw [register_known hid]
    rw [h.functionId?_eq, idxOf?_eq_some_iff_getElem? (names_nodup rs)] at hid
    refine ⟨?_, h.globals.trans (names_concat_none rs rfl).symm⟩
    rw [names_concat rs rfl, if_pos (List.mem_of_getElem? hid), List.map_set, h.functions,
      ← set_slots (names_nodup rs) hid hother, hlast]
  | none =>
    rw [register_new hid]
    rw [h.functionId?_eq, List.idxOf?_eq_none_iff] at hid
    refine ⟨?_, h.globals.trans (names_concat_none rs rfl).symm⟩
    rw [names_concat rs rfl, if_neg hid, List.map_append, h.functions, slots_append]
    congr 1
    · refine (slots_congr fun name hname => hother name hname ?_).symm
      rintro rfl
      exact hid hname
    · rw [slots, List.map_singleton, List.map_singleton, hlast]

theorem register_global (h : env.Registered rs) (name : String) :
    (env.register (.global name)).2.Registered (rs ++ [.global name]) := by
  have hfunctions : env.functions.map (fun f => (f.name, some f)) =
      slots (names functionName? (rs ++ [.global name])) fun other =>
        latest (external? other) (rs ++ [.global name]) := by
    rw [names_concat_none rs rfl]
    simp only [latest_global]
    exact h.functions
  cases hid : env.resolveGlobal? name with
  | some id =>
    rw [register_knownGlobal hid]
    rw [h.resolveGlobal?_eq, idxOf?_eq_some_iff_getElem? (names_nodup rs)] at hid
    refine ⟨hfunctions, ?_⟩
    rw [names_concat rs rfl, if_pos (List.mem_of_getElem? hid), h.globals]
  | none =>
    rw [register_newGlobal hid]
    rw [h.resolveGlobal?_eq, List.idxOf?_eq_none_iff] at hid
    refine ⟨hfunctions, ?_⟩
    rw [names_concat rs rfl, if_neg hid, h.globals]

end Registered

theorem ofRegistrations_concat (rs : List Registration) (r : Registration) :
    ofRegistrations (rs ++ [r]) = ((ofRegistrations rs).register r).2 := by
  rw [ofRegistrations, List.foldl_append]
  rfl

theorem registered_ofRegistrations (rs : List Registration) : (ofRegistrations rs).Registered rs := by
  induction rs using List.reverseRecOn with
  | nil => exact ⟨rfl, rfl⟩
  | append_singleton rs r ih =>
    rw [ofRegistrations_concat]
    cases r with
    | function f => exact ih.register_function f
    | global name => exact ih.register_global name

/-- A registration gives the id under which it leaves its name. -/
theorem Registered.idOf?_register (h : env.Registered rs) (r : Registration) :
    (env.register r).2.idOf? r = some (env.register r).1 := by
  cases r with
  | function f =>
    have h' := h.register_function f
    refine h'.functionId?_iff.2 (h'.getElem? ?_).1
    cases hid : env.functionId? f.name with
    | some id =>
      obtain ⟨hlt, -⟩ := List.findIdx?_eq_some_iff_getElem.1 hid
      rw [register_known hid]
      exact List.getElem?_set_self hlt
    | none => simp [register_new hid]
  | global name =>
    refine (h.register_global name).resolveGlobal?_iff.2 ?_
    cases hid : env.resolveGlobal? name with
    | some id =>
      rw [register_knownGlobal hid]
      exact h.resolveGlobal?_iff.1 hid
    | none => simp [register_newGlobal hid, globalName?]

/-- More registrations change no id. -/
theorem idOf?_ofRegistrations_append (h : (ofRegistrations rs).idOf? r = some id) (rs' : List Registration) :
    (ofRegistrations (rs ++ rs')).idOf? r = some id := by
  have hbefore := registered_ofRegistrations rs
  have hafter := registered_ofRegistrations (rs ++ rs')
  cases r with
  | function f =>
    obtain ⟨more, hmore⟩ := names_append rs rs'
    rw [idOf?, hbefore.functionId?_eq] at h
    rw [idOf?, hafter.functionId?_eq, hmore]
    exact idxOf?_append h
  | global name =>
    obtain ⟨more, hmore⟩ := names_append rs rs'
    rw [idOf?, hbefore.resolveGlobal?_eq] at h
    rw [idOf?, hafter.resolveGlobal?_eq, hmore]
    exact idxOf?_append h

theorem Registered.resolveFunction?_iff (h : env.Registered rs) {argc : Nat} :
    env.resolveFunction? name argc = some (id, f) ↔
      env.functionId? name = some id ∧ latest (external? name) rs = some f ∧ f.arity = argc := by
  have hslot : ∀ {g : External}, env.functionId? name = some id → env.functions[id]? = some g →
      latest (external? name) rs = some g := by
    intro g hid hg
    obtain ⟨hname, hlast⟩ := h.getElem? hg
    rw [h.functionId?_iff.1 hid, Option.some_inj] at hname
    rwa [hname]
  unfold resolveFunction?
  constructor
  · intro hf
    obtain ⟨id', hid, hf⟩ := Option.bind_eq_some_iff.1 hf
    obtain ⟨g, hg, hf⟩ := Option.bind_eq_some_iff.1 hf
    rw [Option.ite_none_right_eq_some, Option.some_inj, Prod.mk.injEq] at hf
    obtain ⟨harity, rfl, rfl⟩ := hf
    exact ⟨hid, hslot hid hg, harity⟩
  · rintro ⟨hid, hlast, harity⟩
    obtain ⟨hlt, -⟩ := List.findIdx?_eq_some_iff_getElem.1 hid
    have hg := List.getElem?_eq_getElem hlt
    have heq : env.functions[id] = f := Option.some_inj.1 ((hslot hid hg).symm.trans hlast)
    rw [heq] at hg
    simp [hid, hg, harity]

/-- What names and ids stand for after some registrations. -/
structure Coherent (env : Environment) (rs : List Registration) : Prop where
  functions_nodup : (env.functions.map (·.name)).Nodup
  globals_nodup : env.globals.Nodup
  /-- Ids count the names of functions in the order of their first registration. -/
  functions_order : env.functions.map (·.name) = (rs.filterMap functionName?).eraseDups
  globals_order : env.globals = (rs.filterMap Registration.globalName?).eraseDups
  functionId_iff : ∀ name id, env.functionId? name = some id ↔ (env.functions.map (·.name))[id]? = some name
  /-- The id that a registration gave is still that of its name. -/
  ids_stay : ∀ before r after, rs = before ++ r :: after →
    env.idOf? r = some ((ofRegistrations before).register r).1
  resolves_iff : ∀ name argc, (env.resolveFunction? name argc).isSome = true ↔
    ∃ f, latest (external? name) rs = some f ∧ f.arity = argc
  resolves_to : ∀ name argc id f, env.resolveFunction? name argc = some (id, f) →
    env.functionId? name = some id ∧ latest (external? name) rs = some f
  resolveGlobal_iff : ∀ name id, env.resolveGlobal? name = some id ↔ env.globalName? id = some name

theorem Registered.functionId?_of_latest (h : env.Registered rs) (hf : latest (external? name) rs = some f) :
    ∃ id, env.functionId? name = some id := by
  obtain ⟨r, hr, htells⟩ := List.mem_filterMap.1 (List.mem_of_getLast? hf)
  have hname : name ∈ names functionName? rs := by
    rw [names, List.mem_eraseDups, List.mem_filterMap]
    refine ⟨r, hr, ?_⟩
    cases r with
    | function g =>
      rw [external?, Option.ite_none_right_eq_some] at htells
      rw [functionName?, htells.1]
    | global => cases htells
  obtain ⟨id, hid⟩ := List.mem_iff_getElem?.1 hname
  exact ⟨id, h.functionId?_iff.2 hid⟩

theorem coherent_ofRegistrations (rs : List Registration) : (ofRegistrations rs).Coherent rs := by
  have h := registered_ofRegistrations rs
  refine ⟨?_, ?_, h.functionNames_eq, h.globals, ?_, ?_, ?_, ?_, ?_⟩
  · rw [h.functionNames_eq]
    exact names_nodup rs
  · rw [h.globals]
    exact names_nodup rs
  · intro name id
    rw [h.functionNames_eq, h.functionId?_iff]
  · rintro before r after rfl
    have hid := (registered_ofRegistrations before).idOf?_register r
    rw [← ofRegistrations_concat] at hid
    have hstays := idOf?_ofRegistrations_append hid after
    rwa [List.append_assoc] at hstays
  · intro name argc
    rw [Option.isSome_iff_exists]
    constructor
    · rintro ⟨⟨id, f⟩, hf⟩
      exact ⟨f, (h.resolveFunction?_iff.1 hf).2⟩
    · rintro ⟨f, hf, harity⟩
      obtain ⟨id, hid⟩ := h.functionId?_of_latest hf
      exact ⟨(id, f), h.resolveFunction?_iff.2 ⟨hid, hf, harity⟩⟩
  · intro name argc id f hf
    obtain ⟨hid, hlast, -⟩ := h.resolveFunction?_iff.1 hf
    exact ⟨hid, hlast⟩
  · intro name id
    exact h.resolveGlobal?_iff

end Environment

end Wordlang
