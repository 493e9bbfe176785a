import Wordlang.Compile

/-!
# Where the functions of a program are

The signature table and the entries of an image list the functions of a program in the order of their
declaration, and the code of each function stands at the address in its entry.

Main statement: `Program.Linked.of_compile`, what a compiled program has in its image.
-/

namespace Wordlang

/-- A check that succeeds has succeeded in each of its parts. -/
theorem parts_ok {ε α β : Type} {b : β} {f : α → Except ε β} :
    ∀ {x : Except ε α}, (x >>= f) = .ok b → ∃ a, x = .ok a ∧ f a = .ok b
  | .ok a, h => ⟨a, rfl, h⟩

theorem ok_of_inFunction {α : Type} {f : Function} {x : Except CompileError.Cause α} {a : α}
    (h : inFunction f x = .ok a) : x = .ok a := by
  cases x with
  | error e => cases h
  | ok b => cases h; rfl

/-! ## The signature table -/

/-- The signatures of functions whose ids start at `n`. -/
def Signatures.listing : (n : Nat) → List Function → Signatures
  | _, [] => []
  | n, f :: fs => (f.name, ⟨n, f.params.length, f.kind⟩) :: Signatures.listing (n + 1) fs

theorem foldlM_verify {table result : Signatures} : ∀ {fs : List Function},
    fs.foldlM (fun (table : Signatures) f => do
      let (_, table) ← table.register f
      f.verify
      return table) table = (.ok result : Except CompileError Signatures) →
    result = table ++ Signatures.listing table.length fs ∧ ∀ f ∈ fs, f.verify = .ok ()
  | [], h => by
    cases h
    simp [Signatures.listing]
  | f :: fs, h => by
    rw [List.foldlM_cons] at h
    obtain ⟨table', h₁, h₂⟩ := parts_ok h
    obtain ⟨⟨signature, table''⟩, hr, h₁⟩ := parts_ok h₁
    obtain ⟨⟨⟩, hv, h₁⟩ := parts_ok h₁
    cases h₁
    have htable : table' = table ++ [(f.name, ⟨table.length, f.params.length, f.kind⟩)] := by
      unfold Signatures.register at hr
      split at hr
      · cases hr
      · cases hr; rfl
    subst htable
    obtain ⟨hresult, hfs⟩ := foldlM_verify h₂
    refine ⟨by simpa [Signatures.listing] using hresult, ?_⟩
    rintro g (_ | ⟨_, hg⟩)
    · exact hv
    · exact hfs g hg

theorem Program.verify_eq_ok {p : Program} {table : Signatures} (h : p.verify = .ok table) :
    table = Signatures.listing 0 p ∧ ∀ f ∈ p, f.verify = .ok () := by
  simpa using foldlM_verify h

/-- A name in the table is the name of a function, under the function's id. -/
theorem Signatures.listing_get?_some {name : String} {signature : Signature} :
    ∀ {n : Nat} {fs : List Function}, (Signatures.listing n fs).get? name = some signature →
      ∃ i f, signature = ⟨n + i, f.params.length, f.kind⟩ ∧ fs[i]? = some f ∧
        fs.find? (·.name == name) = some f
  | _, [], h => by simp [listing, get?] at h
  | n, f :: fs, h => by
    by_cases hf : f.name = name
    · simp only [listing, get?, List.lookup_cons, hf, beq_self_eq_true, Option.some.injEq] at h
      exact ⟨0, f, h.symm, rfl, by simp [hf]⟩
    · have hne : (name == f.name) = false := by simpa using Ne.symm hf
      simp only [listing, get?, List.lookup_cons, hne] at h
      obtain ⟨i, g, hs, hg, hfind⟩ := listing_get?_some h
      refine ⟨i + 1, g, by rw [hs, Nat.add_right_comm, Nat.add_assoc], by simpa using hg, ?_⟩
      rw [List.find?_cons_of_neg (by simpa using hf)]
      exact hfind

theorem Signatures.listing_get?_none {name : String} :
    ∀ {n : Nat} {fs : List Function}, (Signatures.listing n fs).get? name = none →
      fs.find? (·.name == name) = none
  | _, [], _ => rfl
  | n, f :: fs, h => by
    by_cases hf : f.name = name
    · simp [listing, get?, hf] at h
    · have hne : (name == f.name) = false := by simpa using Ne.symm hf
      simp only [listing, get?, List.lookup_cons, hne] at h
      rw [List.find?_cons_of_neg (by simpa using hf)]
      exact listing_get?_none h

/-! ## Code in an image -/

/-- The code of the image has the given instructions from an address on. -/
def Image.Holds (image : Image) (start : Nat) (code : List Instruction) : Prop :=
  ∀ i instruction, code[i]? = some instruction → image.code[start + i]? = some instruction

namespace Image.Holds

variable {image : Image} {start : Nat} {code code' : List Instruction} {i : Instruction}

theorem left (h : image.Holds start (code ++ code')) : image.Holds start code := by
  intro i instruction hi
  obtain ⟨hlt, -⟩ := List.getElem?_eq_some_iff.1 hi
  exact h i instruction (by rw [List.getElem?_append_left hlt, hi])

theorem right (h : image.Holds start (code ++ code')) : image.Holds (start + code.length) code' := by
  intro i instruction hi
  rw [Nat.add_assoc]
  exact h _ instruction (by rw [List.getElem?_append_right (by omega), Nat.add_sub_cancel_left, hi])

theorem head (h : image.Holds start (i :: code)) : image.code[start]? = some i := h 0 i rfl

theorem tail (h : image.Holds start (i :: code)) : image.Holds (start + 1) code := by
  intro j instruction hj
  rw [Nat.add_assoc, Nat.add_comm 1 j]
  exact h (j + 1) instruction (by simpa using hj)

end Image.Holds

/-- The code of each function stands at the address in its entry. -/
theorem Emit.functions_layout {table : Signatures} {env : Environment} {id : Nat} {f : Function} :
    ∀ {fs : List Function} {start : Nat} {code : List Instruction} {entries : List Entry},
      Emit.functions table env start fs = .ok (code, entries) → fs[id]? = some f →
      ∃ before body after, Emit.block ⟨f, table, env⟩ (start + before.length) f.body = .ok body ∧
        code = before ++ (body ++ Emit.terminator f) ++ after ∧
        entries[id]? = some (Emit.entry f (start + before.length))
  | [], _, _, _, _, hf => by simp at hf
  | g :: fs, start, code, entries, h, hf => by
    simp only [Emit.functions] at h
    obtain ⟨first, h₁, h⟩ := parts_ok h
    obtain ⟨⟨code', entries'⟩, h₂, h⟩ := parts_ok h
    cases h
    cases id with
    | zero =>
      cases (by simpa using hf : g = f)
      obtain ⟨body, hb, h₁⟩ := parts_ok (ok_of_inFunction h₁)
      cases h₁
      exact ⟨[], body, code', hb, by simp, by simp⟩
    | succ id =>
      obtain ⟨before, body, after, hb, rfl, he⟩ := Emit.functions_layout h₂ (by simpa using hf)
      refine ⟨first ++ before, body, after, ?_, by simp, ?_⟩
      · rw [List.length_append, ← Nat.add_assoc]
        exact hb
      · simpa [Nat.add_assoc] using he

theorem Emit.functions_names {table : Signatures} {env : Environment} :
    ∀ {fs : List Function} {start : Nat} {code : List Instruction} {entries : List Entry},
      Emit.functions table env start fs = .ok (code, entries) → entries.map (·.name) = fs.map (·.name)
  | [], _, _, _, h => by cases h; rfl
  | f :: fs, start, code, entries, h => by
    simp only [Emit.functions] at h
    obtain ⟨first, -, h⟩ := parts_ok h
    obtain ⟨⟨code', entries'⟩, h₂, h⟩ := parts_ok h
    cases h
    simp [Emit.functions_names h₂, Emit.entry]

/-! ## Linked programs -/

/-- The image has the code and the entry of every function of the program, all of them verified. -/
structure Program.Linked (p : Program) (env : Environment) (image : Image) : Prop where
  verified : ∀ f ∈ p, f.verify = .ok ()
  names : image.entries.toList.map (·.name) = p.map (·.name)
  code : ∀ {id : Nat} {f : Function}, p[id]? = some f → ∃ address body,
    Emit.block ⟨f, Signatures.listing 0 p, env⟩ address f.body = .ok body ∧
    image.Holds address (body ++ Emit.terminator f) ∧
    image.entries[id]? = some (Emit.entry f address)

namespace Program.Linked

variable {p : Program} {env : Environment} {image : Image}

theorem of_compile (h : p.compile env = .ok image) : p.Linked env image := by
  obtain ⟨table, hv, h⟩ := parts_ok h
  obtain ⟨⟨code, entries⟩, he, h⟩ := parts_ok h
  cases h
  obtain ⟨rfl, hverified⟩ := Program.verify_eq_ok hv
  refine ⟨hverified, Emit.functions_names he, fun {id f} hf => ?_⟩
  obtain ⟨before, body, after, hb, rfl, hentry⟩ := Emit.functions_layout he hf
  rw [Nat.zero_add] at hb hentry
  refine ⟨before.length, body, hb, fun i instruction hi => ?_, by simpa using hentry⟩
  obtain ⟨hlt, -⟩ := List.getElem?_eq_some_iff.1 hi
  rw [List.getElem?_toArray, List.append_assoc, List.getElem?_append_right (by omega), Nat.add_sub_cancel_left,
    List.getElem?_append_left hlt, hi]

theorem findIdx?_entries (h : p.Linked env image) (name : String) :
    image.entries.findIdx? (·.name == name) = p.findIdx? (·.name == name) := by
  have hp : ∀ {α : Type} (l : List α) (f : α → String), l.findIdx? (fun x => f x == name) =
      (l.map f).findIdx? (· == name) := fun l f => by rw [List.findIdx?_map]; rfl
  have he : image.entries.findIdx? (·.name == name) = image.entries.toList.findIdx? (·.name == name) := by
    rw [← List.findIdx?_toArray]
  rw [he, hp _ Entry.name, hp _ Function.name, h.names]

theorem find?_none (h : p.Linked env image) {name : String} (hf : p.find? (·.name == name) = none) :
    image.find? name = none := by
  rw [List.find?_eq_none] at hf
  have hi : p.findIdx? (·.name == name) = none := List.findIdx?_eq_none_iff.2 fun f hm => by simpa using hf f hm
  simp [Image.find?, h.findIdx?_entries, hi]

/-- A function that is found by name in the program is found by name in the image, with its code. -/
theorem find?_some (h : p.Linked env image) {name : String} {f : Function}
    (hf : p.find? (·.name == name) = some f) : ∃ id address body,
      image.find? name = some (id, Emit.entry f address) ∧ p[id]? = some f ∧
      Emit.block ⟨f, Signatures.listing 0 p, env⟩ address f.body = .ok body ∧
      image.Holds address (body ++ Emit.terminator f) := by
  rw [List.find?_eq_bind_findIdx?_getElem?] at hf
  obtain ⟨id, hid, hf⟩ := Option.bind_eq_some_iff.1 hf
  obtain ⟨address, body, hb, hcode, he⟩ := h.code hf
  exact ⟨id, address, body, by simp [Image.find?, h.findIdx?_entries, hid, he], hf, hb, hcode⟩

end Program.Linked

end Wordlang
