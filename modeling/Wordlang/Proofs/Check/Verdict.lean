import Wordlang.Proofs.Check.Paths

/-!
# What verification decides

A program is verified if the names of its functions differ and each function is well formed: the names of its parameters
and locals differ, its returns fit its kind, all of its statements are reached, and a `func` has no path that falls off
the end of its body. The functions are enlisted one by one, so that an error is about the end of the shortest prefix
that is not well formed.

Main statement: `Program.verify_iff_wellFormed`.
-/

namespace Wordlang

/-! ## Functions -/

structure Function.WellFormed (f : Function) : Prop where
  names : (f.params ++ f.locals).Nodup
  returns : Stmt.ReturnsFit f.kind f.body
  reached : Stmt.AllReached f.body
  complete : f.kind = .func → ¬ Stmt.FallsOff f.body

theorem firstRepeated?_eq_none_iff (seen names : List String) :
    firstRepeated? seen names = none ↔ names.Nodup ∧ ∀ name ∈ names, name ∉ seen := by
  induction names generalizing seen with
  | nil => simp [firstRepeated?]
  | cons name names ih =>
    by_cases hseen : name ∈ seen
    · simp [firstRepeated?, hseen]
    · rw [firstRepeated?, if_neg hseen, ih, List.nodup_cons, List.forall_mem_cons]
      simp only [List.mem_cons, not_or]
      constructor
      · rintro ⟨hnodup, hnew⟩
        exact ⟨⟨fun hmem => (hnew name hmem).1 rfl, hnodup⟩, hseen, fun x hx => (hnew x hx).2⟩
      · rintro ⟨⟨hmem, hnodup⟩, -, hnew⟩
        refine ⟨hnodup, fun x hx => ⟨?_, hnew x hx⟩⟩
        rintro rfl
        exact hmem hx

theorem Function.verify_succeeds_iff {f : Function} : Succeeds f.verify ↔ f.WellFormed := by
  have hnames := firstRepeated?_eq_none_iff [] (f.params ++ f.locals)
  unfold Function.verify
  rw [succeeds_inFunction]
  cases hrepeated : firstRepeated? [] (f.params ++ f.locals) with
  | some name =>
    refine iff_of_false (not_succeeds_throw _) fun hf => ?_
    cases hrepeated.symm.trans (hnames.2 ⟨hf.names, by simp⟩)
  | none =>
    have hnodup := (hnames.1 hrepeated).1
    simp only [succeeds_bind]
    constructor
    · rintro ⟨returns, hb, hlast⟩
      obtain ⟨hfit, hreached⟩ := (Stmt.blockReturns_succeeds_iff f.body).1 ⟨returns, hb⟩
      refine ⟨hnodup, hfit, hreached, fun hk hoff => ?_⟩
      cases (Stmt.blockReturns_false_iff hb).2 hoff
      simp [hk] at hlast
    · intro hf
      obtain ⟨returns, hb⟩ := (Stmt.blockReturns_succeeds_iff f.body).2 ⟨hf.returns, hf.reached⟩
      refine ⟨returns, hb, ?_⟩
      cases returns with
      | true => simp
      | false =>
        have hk : f.kind ≠ .func := fun hk => hf.complete hk ((Stmt.blockReturns_false_iff hb).1 rfl)
        simp [hk]

/-! ## Programs -/

structure Program.WellFormed (p : Program) : Prop where
  names : (p.map (·.name)).Nodup
  functions : ∀ f ∈ p, f.WellFormed

theorem Program.wellFormed_append_singleton {p : Program} {f : Function} :
    Program.WellFormed (p ++ [f]) ↔ p.WellFormed ∧ f.name ∉ p.map (·.name) ∧ f.WellFormed := by
  constructor
  · rintro ⟨hnames, hfunctions⟩
    rw [List.map_append, List.map_singleton, List.nodup_append] at hnames
    rw [List.forall_mem_append, List.forall_mem_singleton] at hfunctions
    obtain ⟨hdistinct, -, hnew⟩ := hnames
    exact ⟨⟨hdistinct, hfunctions.1⟩, fun hmem => hnew _ hmem _ (List.mem_singleton_self _) rfl, hfunctions.2⟩
  · rintro ⟨⟨hnames, hfunctions⟩, hnew, hf⟩
    refine ⟨?_, List.forall_mem_append.2 ⟨hfunctions, List.forall_mem_singleton.2 hf⟩⟩
    rw [List.map_append, List.map_singleton, List.nodup_append]
    refine ⟨hnames, by simp, fun x hx y hy hxy => hnew ?_⟩
    rw [← List.mem_singleton.1 hy, ← hxy]
    exact hx

theorem Program.WellFormed.of_append {p q : Program} (h : Program.WellFormed (p ++ q)) : p.WellFormed := by
  refine ⟨?_, fun f hf => h.functions f (List.mem_append_left q hf)⟩
  have hnames := h.names
  rw [List.map_append] at hnames
  exact hnames.sublist (List.sublist_append_left _ _)

namespace Signatures

theorem listing_append {fs gs : List Function} {n : Nat} :
    listing n (fs ++ gs) = listing n fs ++ listing (n + fs.length) gs := by
  induction fs generalizing n with
  | nil => rfl
  | cons f fs ih => simp [listing, ih, Nat.add_comm 1, Nat.add_assoc]

theorem listing_eq_mapIdx {fs : List Function} {n : Nat} :
    listing n fs = fs.mapIdx fun i f => (f.name, ⟨n + i, f.params.length, f.kind⟩) := by
  induction fs generalizing n with
  | nil => rfl
  | cons f fs ih => simp [listing, ih, Nat.add_comm 1, Nat.add_assoc, List.mapIdx_cons]

theorem length_listing {fs : List Function} {n : Nat} : (listing n fs).length = fs.length := by
  simp [listing_eq_mapIdx]

theorem listing_get?_eq_none_iff {fs : List Function} {n : Nat} {name : String} :
    (listing n fs).get? name = none ↔ name ∉ fs.map (·.name) := by
  induction fs generalizing n with
  | nil => simp [listing, get?]
  | cons f fs ih =>
    by_cases hf : name = f.name
    · simp [listing, get?, hf]
    · have hne : (name == f.name) = false := by simpa using hf
      have hget : (listing n (f :: fs)).get? name = (listing (n + 1) fs).get? name := by
        simp only [listing, get?, List.lookup_cons, hne]
      rw [hget, ih, List.map_cons, List.mem_cons, not_or, and_iff_right hf]

/-- Adds a function to the functions verified before it. -/
def enlist (table : Signatures) (f : Function) : Except CompileError Signatures := do
  let (_, table) ← table.register f
  f.verify
  return table

/-- A function is enlisted exactly if it keeps the program well formed, and else the error names it. -/
theorem enlist_cases {p : Program} (hp : p.WellFormed) (f : Function) :
    Program.WellFormed (p ++ [f]) ∧ enlist (listing 0 p) f = .ok (listing 0 (p ++ [f])) ∨
    ¬ Program.WellFormed (p ++ [f]) ∧ ∃ e, enlist (listing 0 p) f = .error e ∧ e.function = f.name := by
  rw [Program.wellFormed_append_singleton, and_iff_right hp]
  by_cases hname : f.name ∈ p.map (·.name)
  · have hne := mt (listing_get?_eq_none_iff (n := 0)).1 (not_not_intro hname)
    obtain ⟨signature, hget⟩ := Option.ne_none_iff_exists'.1 hne
    refine .inr ⟨fun h => h.1 hname, ⟨f.name, .functionRedefined⟩, ?_, rfl⟩
    simp only [enlist, register, hget]
    rfl
  · have hget := (listing_get?_eq_none_iff (n := 0)).2 hname
    have henlist : enlist (listing 0 p) f = f.verify >>= fun _ => .ok (listing 0 (p ++ [f])) := by
      simp only [enlist, register, hget, listing_append, listing, length_listing, Nat.zero_add]
      rfl
    by_cases hf : f.WellFormed
    · obtain ⟨⟨⟩, hv⟩ := Function.verify_succeeds_iff.2 hf
      exact .inl ⟨⟨hname, hf⟩, by rw [henlist, hv]; rfl⟩
    · cases hv : f.verify with
      | ok u => exact absurd (Function.verify_succeeds_iff.1 ⟨u, hv⟩) hf
      | error e =>
        refine .inr ⟨fun h => hf h.2, e, by rw [henlist, hv]; rfl, ?_⟩
        exact function_of_inFunction hv

/-- Admitting functions one after the other. -/
theorem foldlM_enlist {fs : List Function} {p : Program} (hp : p.WellFormed) :
    Program.WellFormed (p ++ fs) ∧ fs.foldlM enlist (listing 0 p) = .ok (listing 0 (p ++ fs)) ∨
    ∃ before f after e, fs = before ++ f :: after ∧ Program.WellFormed (p ++ before) ∧
      ¬ Program.WellFormed (p ++ before ++ [f]) ∧ fs.foldlM enlist (listing 0 p) = .error e ∧ e.function = f.name := by
  induction fs generalizing p with
  | nil =>
    rw [List.append_nil]
    exact .inl ⟨hp, rfl⟩
  | cons f fs ih =>
    rw [List.foldlM_cons]
    rcases enlist_cases hp f with ⟨hf, henlist⟩ | ⟨hf, e, henlist, he⟩
    · rw [henlist]
      rcases ih hf with ⟨hfs, hfold⟩ | ⟨before, g, after, e, rfl, hbefore, hg, hfold, he⟩
      · rw [List.append_assoc] at hfs hfold
        exact .inl ⟨hfs, hfold⟩
      · rw [List.append_assoc p] at hbefore hg
        exact .inr ⟨f :: before, g, after, e, rfl, hbefore, hg, hfold, he⟩
    · rw [henlist]
      refine .inr ⟨[], f, fs, e, rfl, ?_, ?_, rfl, he⟩
      · rwa [List.append_nil]
      · rwa [List.append_nil]

end Signatures

namespace Program

theorem wellFormed_nil : WellFormed [] := ⟨List.nodup_nil, by simp⟩

/-- Verification gives the listing of a well-formed program, and else an error about the first function with which the
program is not well formed. -/
theorem verify_cases (p : Program) :
    p.WellFormed ∧ p.verify = .ok (Signatures.listing 0 p) ∨
    ∃ before f after e, p = before ++ f :: after ∧ WellFormed before ∧ ¬ WellFormed (before ++ [f]) ∧
      p.verify = .error e ∧ e.function = f.name :=
  Signatures.foldlM_enlist wellFormed_nil

theorem verify_succeeds_iff {p : Program} : Succeeds p.verify ↔ p.WellFormed := by
  rcases p.verify_cases with ⟨hp, hv⟩ | ⟨before, f, after, e, rfl, -, hf, hv, -⟩
  · exact iff_of_true ⟨_, hv⟩ hp
  · refine iff_of_false ?_ fun hp => ?_
    · rintro ⟨table, htable⟩
      cases hv.symm.trans htable
    · rw [List.append_cons] at hp
      exact hf hp.of_append

/-- A program is verified exactly if it is well formed. Its signatures are then those of its functions, in the order of
their declaration and with their places as ids. If not, the error is about the function that ends the shortest prefix
that is not well formed. -/
theorem verify_iff_wellFormed (p : Program) :
    ((∃ table, p.verify = .ok table) ↔ p.WellFormed) ∧
    (∀ table, p.verify = .ok table → table = p.mapIdx fun id f => (f.name, ⟨id, f.params.length, f.kind⟩)) ∧
    (∀ e, p.verify = .error e → ∃ before f after, p = before ++ f :: after ∧ WellFormed before ∧
      ¬ WellFormed (before ++ [f]) ∧ e.function = f.name) := by
  refine ⟨verify_succeeds_iff, fun table htable => ?_, fun e he => ?_⟩
  · obtain ⟨rfl, -⟩ := verify_eq_ok htable
    simpa using Signatures.listing_eq_mapIdx (n := 0)
  · rcases p.verify_cases with ⟨-, hv⟩ | ⟨before, f, after, e', hp, hbefore, hf, hv, hname⟩
    · cases hv.symm.trans he
    · cases hv.symm.trans he
      exact ⟨before, f, after, hp, hbefore, hf, hname⟩

end Program

/-- Both branches return in the end, so that nothing behind them is reached. -/
def returning : Program := [
  ⟨"Sign", ["n"], [], [.ifElse (.binary .less (.var "n") (.num 0)) [.ret (some (.num (-1)))]
    [.ifThen (.var "n") [.ret (some (.num 1))], .ret (some (.num 0))]], .func⟩,
  ⟨"Late", ["n"], ["x"], [.ifElse (.var "n") [.ret none] [.set "x" (.num 1), .ret none], .expr (.var "x")], .proc⟩,
  ⟨"Sign", [], [], [], .func⟩]

theorem returning_not_wellFormed :
    returning.verify = .error ⟨"Late", .unreachableCode⟩ ∧
    (∃ before f after, returning = before ++ f :: after ∧ Program.WellFormed before ∧
      ¬ Program.WellFormed (before ++ [f]) ∧ "Late" = f.name) ∧
    ∃ table, Program.verify (returning.take 1) = .ok table ∧ table = [("Sign", ⟨0, 1, .func⟩)] ∧
      Program.WellFormed (returning.take 1) := by
  have hlate : returning.verify = .error ⟨"Late", .unreachableCode⟩ := rfl
  have hsign : Program.verify (returning.take 1) = .ok [("Sign", ⟨0, 1, .func⟩)] := rfl
  refine ⟨hlate, (Program.verify_iff_wellFormed returning).2.2 _ hlate, _, hsign, ?_, ?_⟩
  · exact (Program.verify_iff_wellFormed (returning.take 1)).2.1 _ hsign
  · exact (Program.verify_iff_wellFormed (returning.take 1)).1.1 ⟨_, hsign⟩

end Wordlang
