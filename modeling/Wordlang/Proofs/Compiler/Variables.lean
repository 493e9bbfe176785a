import Wordlang.Code.Emit
import Wordlang.Proofs.Compiler.Steps

/-!
# Variables

A name resolves to the same variable in an activation and in its frame: the place of a name among the
parameters or the locals of the function is the place of its value on the stack or in the frame.
-/

namespace Wordlang

/-- The variables of the activation are the parameters and the locals of the function. -/
structure Activation.Fits (a : Activation) (f : Function) : Prop where
  params : a.params.map (·.1) = f.params
  locals : a.locals.map (·.1) = f.locals

/-! ## Lookup by name and by place -/

theorem lookup_of_idxOf? {name : String} {i : Nat} : ∀ {l : List (String × Word)},
    (l.map (·.1)).idxOf? name = some i → ∃ v, l.lookup name = some v ∧ (l.map (·.2))[i]? = some v
  | [], h => by simp at h
  | (x, v) :: l, h => by
    rw [List.map_cons, List.idxOf?_cons] at h
    by_cases hx : x = name
    · subst hx
      simp only [beq_self_eq_true, if_true, Option.some.injEq] at h
      subst h
      exact ⟨v, by simp⟩
    · rw [if_neg (by simpa using hx)] at h
      obtain ⟨j, hj, rfl⟩ := Option.map_eq_some_iff.1 h
      obtain ⟨w, hw, hv⟩ := lookup_of_idxOf? hj
      have hne : (name == x) = false := by simpa using Ne.symm hx
      exact ⟨w, by rw [List.lookup_cons, hne]; exact hw, by simpa using hv⟩

theorem lookup_of_idxOf?_none {name : String} {l : List (String × Word)}
    (h : (l.map (·.1)).idxOf? name = none) : l.lookup name = none := by
  rw [List.idxOf?_eq_none_iff] at h
  rw [List.lookup_eq_none_iff]
  intro p hp
  have hne : p.1 ≠ name := fun e => h (e ▸ List.mem_map_of_mem hp)
  simpa using Ne.symm hne

theorem map_fst_assign (name : String) (v : Word) (l : List (String × Word)) :
    (Activation.assign name v l).map (·.1) = l.map (·.1) := by
  induction l with
  | nil => rfl
  | cons p l ih =>
    simp only [Activation.assign]
    split
    · simp
    · simp [ih]

theorem map_snd_assign {name : String} {v : Word} {i : Nat} : ∀ {l : List (String × Word)},
    (l.map (·.1)).idxOf? name = some i → (Activation.assign name v l).map (·.2) = (l.map (·.2)).set i v
  | [], h => by simp at h
  | (x, w) :: l, h => by
    rw [List.map_cons, List.idxOf?_cons] at h
    by_cases hx : x = name
    · subst hx
      simp only [beq_self_eq_true, if_true, Option.some.injEq] at h
      subst h
      simp [Activation.assign]
    · rw [if_neg (by simpa using hx)] at h
      obtain ⟨j, hj, rfl⟩ := Option.map_eq_some_iff.1 h
      simp [Activation.assign, hx, map_snd_assign hj]

theorem Activation.Fits.set {a : Activation} {f : Function} (h : a.Fits f) (name : String) (v : Word) :
    (a.set name v).Fits f := by
  unfold Activation.set
  split
  · exact ⟨by rw [map_fst_assign]; exact h.params, h.locals⟩
  · exact ⟨h.params, by rw [map_fst_assign]; exact h.locals⟩

theorem Activation.Fits.start {f : Function} {args : List Word} (h : args.length = f.params.length) :
    (Activation.start f args).Fits f :=
  ⟨List.map_fst_zip (by omega), by simp [Activation.start, Function.comp_def]⟩

/-! ## Slots -/

/-- What a name can mean. -/
theorem Scope.slot_cases {s : Scope} {name : String} {slot : Slot} (h : s.slot name = .ok slot) :
    (∃ i, slot = .arg i ∧ s.function.params.idxOf? name = some i) ∨
    (∃ i, slot = .loc i ∧ s.function.params.idxOf? name = none ∧ s.function.locals.idxOf? name = some i) ∨
    (∃ id, slot = .global id ∧ s.function.params.idxOf? name = none ∧ s.function.locals.idxOf? name = none ∧
      s.env.resolveGlobal? name = some id) := by
  unfold Scope.slot at h
  split at h
  · rename_i i hi
    cases h
    exact .inl ⟨i, rfl, hi⟩
  · rename_i hp
    split at h
    · rename_i i hi
      cases h
      exact .inr (.inl ⟨i, rfl, hp, hi⟩)
    · rename_i hl
      split at h
      · rename_i id hid
        cases h
        exact .inr (.inr ⟨id, rfl, hp, hl, hid⟩)
      · cases h

/-- A name that has a slot is a variable of the activation or a global. -/
theorem Activation.Fits.get?_cases {s : Scope} {a : Activation} {name : String} {slot : Slot}
    (ha : a.Fits s.function) (h : s.slot name = .ok slot) :
    (∃ v, a.get? name = some v) ∨ (a.get? name = none ∧ ∃ id, s.env.resolveGlobal? name = some id) := by
  rcases Scope.slot_cases h with ⟨i, -, hp⟩ | ⟨i, -, hp, hl⟩ | ⟨id, -, hp, hl, hg⟩
  · rw [← ha.params] at hp
    obtain ⟨v, hv, -⟩ := lookup_of_idxOf? hp
    exact .inl ⟨v, by simp [Activation.get?, hv]⟩
  · rw [← ha.params] at hp
    rw [← ha.locals] at hl
    obtain ⟨v, hv, -⟩ := lookup_of_idxOf? hl
    exact .inl ⟨v, by simp [Activation.get?, lookup_of_idxOf?_none hp, hv]⟩
  · rw [← ha.params] at hp
    rw [← ha.locals] at hl
    exact .inr ⟨by simp [Activation.get?, lookup_of_idxOf?_none hp, lookup_of_idxOf?_none hl], id, hg⟩

namespace Machine

open ExecM

variable {η : Type} [Host η] {c : Caller} {a : Activation} {pc : Nat} {ops : List Word} {i : Nat}

theorem load_arg {v : Word} (p : Nat) (host : η) (hv : a.args[i]? = some v) :
    load pc (.arg i) ((a.landing c p ops).state host) = .ok v ((a.landing c p ops).state host) := by
  obtain ⟨hlt, rfl⟩ := List.getElem?_eq_some_iff.1 hv
  have hget : (c.stack ++ a.args ++ ops).toArray.getD (c.stack.length + i) 0 = a.args[i] := by
    rw [Array.getD_eq_getD_getElem?, List.getElem?_toArray, List.append_assoc,
      List.getElem?_append_right (by omega), Nat.add_sub_cancel_left, List.getElem?_append_left hlt, hv]
    rfl
  simp only [load, loadArg, Landing.state, Activation.landing, List.back?_toArray, List.getLast?_concat,
    Activation.frame, if_pos hlt, hget]

theorem load_loc {v : Word} (p : Nat) (host : η) (hv : (a.locals.map (·.2))[i]? = some v) :
    load pc (.loc i) ((a.landing c p ops).state host) = .ok v ((a.landing c p ops).state host) := by
  simp only [load, loadLocal, Landing.state, Activation.landing, List.back?_toArray, List.getLast?_concat,
    Activation.frame, List.getElem?_toArray, hv]

theorem store_arg {v : Word} (a' : Activation) (p : Nat) (host : η) (hlt : i < a.args.length)
    (hargs : a'.args = a.args.set i v) (hlocals : a'.locals = a.locals) :
    store pc v (.arg i) ((a.landing c p ops).state host) = .ok () ((a'.landing c p ops).state host) := by
  have hset : (c.stack ++ a.args ++ ops).set (c.stack.length + i) v = c.stack ++ a.args.set i v ++ ops := by
    rw [List.append_assoc, List.set_append_right _ _ (by omega), Nat.add_sub_cancel_left,
      List.set_append_left _ _ hlt, List.append_assoc]
  simp only [store, storeArg, Landing.state, Activation.landing, List.back?_toArray, List.getLast?_concat,
    Activation.frame, if_pos hlt, List.setIfInBounds_toArray, hset, hargs, hlocals, List.length_set]

theorem store_loc {v : Word} (a' : Activation) (p : Nat) (host : η) (hlt : i < a.locals.length)
    (hparams : a'.params = a.params) (hlocals : a'.locals.map (·.2) = (a.locals.map (·.2)).set i v) :
    store pc v (.loc i) ((a.landing c p ops).state host) = .ok () ((a'.landing c p ops).state host) := by
  have hlt' : i < (a.locals.map (·.2)).length := by simpa using hlt
  simp only [store, storeLocal, Landing.state, Activation.landing, List.back?_toArray, List.getLast?_concat,
    Activation.frame, List.size_toArray, if_pos hlt', List.setIfInBounds_toArray, List.pop_toArray,
    List.dropLast_concat, List.push_toArray, hlocals, Activation.args, hparams]

variable {s : Scope} {name : String} {slot : Slot} {cx : Surroundings η}

/-- A name reads the same in the activation and in its frame. -/
theorem load_eq_read (p : Nat) (host : η) (hs : s.slot name = .ok slot) (ha : a.Fits s.function)
    (henv : cx.env = s.env) :
    load pc slot ((a.landing c p ops).state host) = match Eval.read cx a name host with
      | .ok v host' => .ok v ((a.landing c p ops).state host')
      | .error f host' => .error f ((a.landing c p ops).state host') := by
  rcases Scope.slot_cases hs with ⟨i, rfl, hp⟩ | ⟨i, rfl, hp, hl⟩ | ⟨id, rfl, hp, hl, hg⟩
  · rw [← ha.params] at hp
    obtain ⟨v, hv, hi⟩ := lookup_of_idxOf? hp
    have hget : a.get? name = some v := by simp [Activation.get?, hv]
    rw [load_arg p host hi]
    simp only [Eval.read, hget]
    rfl
  · rw [← ha.params] at hp
    rw [← ha.locals] at hl
    obtain ⟨v, hv, hi⟩ := lookup_of_idxOf? hl
    have hget : a.get? name = some v := by simp [Activation.get?, lookup_of_idxOf?_none hp, hv]
    rw [load_loc p host hi]
    simp only [Eval.read, hget]
    rfl
  · rw [← ha.params] at hp
    rw [← ha.locals] at hl
    have hget : a.get? name = none := by
      simp [Activation.get?, lookup_of_idxOf?_none hp, lookup_of_idxOf?_none hl]
    simp only [load, ask_state, Eval.read, hget, henv, hg, Eval.ask]
    rcases Host.loadGlobal host id with ⟨_ | _, _⟩ <;> rfl

/-- A name is written alike in the activation and in its frame. -/
theorem store_eq_write {v : Word} (p : Nat) (host : η) (hs : s.slot name = .ok slot) (ha : a.Fits s.function)
    (henv : cx.env = s.env) :
    store pc v slot ((a.landing c p ops).state host) = match Eval.write cx a name v host with
      | .ok a' host' => .ok () ((a'.landing c p ops).state host')
      | .error f host' => .error f ((a.landing c p ops).state host') := by
  rcases Scope.slot_cases hs with ⟨i, rfl, hp⟩ | ⟨i, rfl, hp, hl⟩ | ⟨id, rfl, hp, hl, hg⟩
  · rw [← ha.params] at hp
    obtain ⟨w, hw, hi⟩ := lookup_of_idxOf? hp
    have hset : a.set name v = { a with params := Activation.assign name v a.params } := by
      simp [Activation.set, hw]
    obtain ⟨hlt, -⟩ := List.getElem?_eq_some_iff.1 hi
    rw [store_arg (a.set name v) p host hlt (by rw [hset]; exact map_snd_assign hp) (by rw [hset])]
    have hget : a.get? name = some w := by simp [Activation.get?, hw]
    simp only [Eval.write, hget]
    rfl
  · rw [← ha.params] at hp
    rw [← ha.locals] at hl
    obtain ⟨w, hw, hi⟩ := lookup_of_idxOf? hl
    have hset : a.set name v = { a with locals := Activation.assign name v a.locals } := by
      simp [Activation.set, lookup_of_idxOf?_none hp]
    obtain ⟨hlt, -⟩ := List.getElem?_eq_some_iff.1 hi
    rw [store_loc (a.set name v) p host (by simpa using hlt) (by rw [hset])
      (by rw [hset]; exact map_snd_assign hl)]
    have hget : a.get? name = some w := by simp [Activation.get?, lookup_of_idxOf?_none hp, hw]
    simp only [Eval.write, hget]
    rfl
  · rw [← ha.params] at hp
    rw [← ha.locals] at hl
    have hget : a.get? name = none := by
      simp [Activation.get?, lookup_of_idxOf?_none hp, lookup_of_idxOf?_none hl]
    simp only [store, ask_state, Eval.write, hget, henv, hg, Eval.ask, Bind.bind, EStateM.bind]
    rcases Host.storeGlobal host id v with ⟨_ | _, _⟩ <;> rfl

end Machine

namespace Simulates

open ExecM

variable {η : Type} [Host η] {m : Machine} {c : Caller} {a : Activation} {pc : Nat} {ops : List Word}
  {s : Scope} {name : String} {slot : Slot} {cx : Surroundings η}

theorem load (hi : m.image.code[pc]? = some (.load slot)) (hs : s.slot name = .ok slot)
    (ha : a.Fits s.function) (henv : cx.env = s.env) :
    Simulates m (Eval.read cx a name) (a.landing c pc ops) fun v => a.landing c (pc + 1) (ops ++ [v]) :=
  of_exec hi fun host => by
    have h : m.exec pc (.load slot) ((a.landing c pc ops).state host) =
        EStateM.bind (Machine.load pc slot) (fun v => do ExecM.push v; return .goto (pc + 1))
          ((a.landing c pc ops).state host) := rfl
    simp only [EStateM.bind, Machine.load_eq_read pc host hs ha henv] at h
    split
    · rename_i v host' hv
      simp only [hv, Bind.bind, EStateM.bind, push_landing] at h
      exact h
    · rename_i f host' hf
      simp only [hf] at h
      exact ⟨f, _, rfl, rfl, h⟩

theorem store {v : Word} (hi : m.image.code[pc]? = some (.store slot)) (hs : s.slot name = .ok slot)
    (ha : a.Fits s.function) (henv : cx.env = s.env) :
    Simulates m (Eval.write cx a name v) (a.landing c pc (ops ++ [v])) fun a' => a'.landing c (pc + 1) ops :=
  of_exec hi fun host => by
    have h : m.exec pc (.store slot) ((a.landing c pc (ops ++ [v])).state host) =
        EStateM.bind (Machine.store pc v slot) (fun _ => return .goto (pc + 1))
          ((a.landing c pc ops).state host) := by
      simp only [Machine.exec, Bind.bind, EStateM.bind, operand_landing]
    simp only [EStateM.bind, Machine.store_eq_write pc host hs ha henv] at h
    split
    · rename_i a' host' hv
      simp only [hv] at h
      exact h
    · rename_i f host' hf
      simp only [hf] at h
      exact ⟨f, _, rfl, rfl, h⟩

end Simulates

end Wordlang
