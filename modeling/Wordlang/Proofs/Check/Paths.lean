import Wordlang.Proofs.Compiler.Scoping

/-!
# Paths through a body

A walk through a block takes either branch of each conditional and stops at a return. The verifier keeps one truth
value per block, and from it decides which statements lie on a walk and whether a walk can fall off the end.

Main statements: `Stmt.blockReturns_succeeds_iff`, a block is accepted exactly if its returns fit and every statement of
it lies on a walk, and `Stmt.blockReturns_false_iff`, the truth value is false exactly if a walk falls off the end.
-/

namespace Wordlang

/-! ## Statements at any depth -/

/-- Where a statement stands in a block: at its head, in a branch of the statement at its head, or behind that. -/
inductive Position
  | here
  | inside (branch : Bool) (inner : Position)
  | behind (rest : Position)
  deriving DecidableEq, Repr

/-- The statements of a branch, `true` for a test that holds. An `if` without `else` has an empty one. -/
def Stmt.branch : Stmt → Bool → List Stmt
  | .ifThen _ body, true => body
  | .ifElse _ yes _, true => yes
  | .ifElse _ _ no, false => no
  | _, _ => []

def Position.find? : Position → List Stmt → Option Stmt
  | _, [] => none
  | .here, s :: _ => some s
  | .inside b inner, s :: _ => inner.find? (s.branch b)
  | .behind rest, _ :: ss => rest.find? ss

@[simp]
theorem Position.find?_nil (pos : Position) : pos.find? [] = none := by
  cases pos <;> rfl

/-! ## Walks -/

mutual

/-- A walk through the statement at the head of a block: where it passes, and whether it stops at a return. -/
inductive Stmt.Walk : Stmt → List Position → (stops : Bool) → Prop
  | expr (e : Expr) : Stmt.Walk (.expr e) [.here] false
  | set (target : String) (value : Expr) : Stmt.Walk (.set target value) [.here] false
  | ret (value : Option Expr) : Stmt.Walk (.ret value) [.here] true
  | ifThen {test : Expr} {body : List Stmt} {path : List Position} {stops : Bool} (b : Bool) :
    Stmt.Walks ((Stmt.ifThen test body).branch b) path stops →
    Stmt.Walk (.ifThen test body) (.here :: path.map (.inside b)) stops
  | ifElse {test : Expr} {yes no : List Stmt} {path : List Position} {stops : Bool} (b : Bool) :
    Stmt.Walks ((Stmt.ifElse test yes no).branch b) path stops →
    Stmt.Walk (.ifElse test yes no) (.here :: path.map (.inside b)) stops

/-- A walk through a block. -/
inductive Stmt.Walks : List Stmt → List Position → (stops : Bool) → Prop
  | nil : Stmt.Walks [] [] false
  | stop {s : Stmt} {path : List Position} (rest : List Stmt) :
    Stmt.Walk s path true → Stmt.Walks (s :: rest) path true
  | go {s : Stmt} {rest : List Stmt} {path path' : List Position} {stops : Bool} :
    Stmt.Walk s path false → Stmt.Walks rest path' stops →
    Stmt.Walks (s :: rest) (path ++ path'.map .behind) stops

end

namespace Stmt

theorem Walk.here_mem {s : Stmt} {path : List Position} {stops : Bool} (h : s.Walk path stops) : .here ∈ path := by
  cases h <;> exact List.mem_cons_self

theorem Walk.behind_not_mem {s : Stmt} {path : List Position} {stops : Bool} (h : s.Walk path stops)
    (pos : Position) : .behind pos ∉ path := by
  cases h <;> simp

/-- The part of a walk that lies in a branch is a walk through the branch. -/
theorem Walk.inside {s : Stmt} {path : List Position} {stops b : Bool} {pos : Position} (h : s.Walk path stops)
    (hpos : .inside b pos ∈ path) : ∃ path', Walks (s.branch b) path' stops ∧ pos ∈ path' := by
  cases h with
  | expr | set | ret => simp at hpos
  | ifThen b' h =>
    obtain ⟨pos', hmem, ⟨⟩⟩ := List.mem_map.1 ((List.mem_cons.1 hpos).resolve_left nofun)
    exact ⟨_, h, hmem⟩
  | ifElse b' h =>
    obtain ⟨pos', hmem, ⟨⟩⟩ := List.mem_map.1 ((List.mem_cons.1 hpos).resolve_left nofun)
    exact ⟨_, h, hmem⟩

/-- A walk through a branch that is not empty belongs to a walk through the statement. -/
theorem Walk.of_branch {s : Stmt} {path : List Position} {stops b : Bool} (hne : s.branch b ≠ [])
    (h : Walks (s.branch b) path stops) : s.Walk (.here :: path.map (.inside b)) stops := by
  cases s with
  | expr | set | ret => exact absurd rfl hne
  | ifThen test body => exact .ifThen b h
  | ifElse test yes no => exact .ifElse b h

mutual

theorem exists_walk : ∀ s : Stmt, ∃ path stops, s.Walk path stops
  | .expr e => ⟨_, _, .expr e⟩
  | .set target value => ⟨_, _, .set target value⟩
  | .ret value => ⟨_, _, .ret value⟩
  | .ifThen test body => ⟨_, _, .ifThen false .nil⟩
  | .ifElse test yes no => by
    obtain ⟨path, stops, h⟩ := exists_walks yes
    exact ⟨_, _, .ifElse true h⟩

/-- There is a way through every block. -/
theorem exists_walks : ∀ ss : List Stmt, ∃ path stops, Walks ss path stops
  | [] => ⟨_, _, .nil⟩
  | s :: rest => by
    obtain ⟨path, stops, h⟩ := exists_walk s
    cases stops with
    | true => exact ⟨_, _, .stop rest h⟩
    | false =>
      obtain ⟨path', stops', h'⟩ := exists_walks rest
      exact ⟨_, _, .go h h'⟩

end

/-- A walk through a statement goes on behind it, unless it stops there. -/
theorem Walk.extend {s : Stmt} {path : List Position} {stops : Bool} (h : s.Walk path stops) (rest : List Stmt) :
    ∃ path' stops', Walks (s :: rest) (path ++ path') stops' := by
  cases stops with
  | true => exact ⟨[], true, by simpa using Walks.stop rest h⟩
  | false =>
    obtain ⟨path', stops', h'⟩ := exists_walks rest
    exact ⟨_, _, .go h h'⟩

/-! ## Blocks in order -/

/-- The returns of a block, at any depth, have a value exactly in a `func`. -/
def ReturnsFit (kind : FunctionKind) (ss : List Stmt) : Prop :=
  ∀ (pos : Position) (value : Option Expr), pos.find? ss = some (.ret value) → (value.isSome = true ↔ kind = .func)

/-- Every statement of a block, at any depth, lies on a walk. -/
def AllReached (ss : List Stmt) : Prop :=
  ∀ (pos : Position) (s : Stmt), pos.find? ss = some s → ∃ path stops, Walks ss path stops ∧ pos ∈ path

/-- A walk through the block falls off its end. -/
def FallsOff (ss : List Stmt) : Prop := ∃ path, Walks ss path false

variable {kind : FunctionKind} {s : Stmt} {rest : List Stmt}

theorem returnsFit_nil : ReturnsFit kind [] := by
  intro pos value h
  simp at h

theorem returnsFit_cons : ReturnsFit kind (s :: rest) ↔
    (∀ value, s = .ret value → (value.isSome = true ↔ kind = .func)) ∧ (∀ b, ReturnsFit kind (s.branch b)) ∧
      ReturnsFit kind rest := by
  constructor
  · intro h
    refine ⟨fun value hs => h .here value (congrArg some hs), fun b pos value hpos => ?_, fun pos value hpos => ?_⟩
    · exact h (.inside b pos) value hpos
    · exact h (.behind pos) value hpos
  · rintro ⟨hs, hbranch, hrest⟩ pos value hpos
    cases pos with
    | here => exact hs value (Option.some.inj hpos)
    | inside b inner => exact hbranch b inner value hpos
    | behind pos => exact hrest pos value hpos

theorem allReached_nil : AllReached [] := by
  intro pos s h
  simp at h

/-- What stands behind a statement is reached only if a walk leaves the statement without a return. -/
theorem allReached_cons : AllReached (s :: rest) ↔
    (∀ b, AllReached (s.branch b)) ∧ (rest ≠ [] → ∃ path, s.Walk path false) ∧ AllReached rest := by
  constructor
  · intro h
    refine ⟨fun b pos st hpos => ?_, fun hne => ?_, fun pos st hpos => ?_⟩
    · obtain ⟨path, stops, hwalk, hmem⟩ := h (.inside b pos) st hpos
      cases hwalk with
      | stop _ hs =>
        obtain ⟨path', hwalk, hmem⟩ := hs.inside hmem
        exact ⟨path', _, hwalk, hmem⟩
      | go hs _ =>
        obtain ⟨path', hwalk, hmem⟩ := hs.inside (by simpa using hmem)
        exact ⟨path', _, hwalk, hmem⟩
    · obtain ⟨st, ss, rfl⟩ := List.exists_cons_of_ne_nil hne
      obtain ⟨path, stops, hwalk, hmem⟩ := h (.behind .here) st rfl
      cases hwalk with
      | stop _ hs => exact absurd hmem (hs.behind_not_mem _)
      | go hs _ => exact ⟨_, hs⟩
    · obtain ⟨path, stops, hwalk, hmem⟩ := h (.behind pos) st hpos
      cases hwalk with
      | stop _ hs => exact absurd hmem (hs.behind_not_mem _)
      | go hs hrest =>
        rcases List.mem_append.1 hmem with hmem | hmem
        · exact absurd hmem (hs.behind_not_mem _)
        · exact ⟨_, _, hrest, by simpa using hmem⟩
  · rintro ⟨hbranch, hleave, hrest⟩ pos st hpos
    cases pos with
    | here =>
      obtain ⟨path, stops, hs⟩ := exists_walk s
      obtain ⟨path', stops', hwalk⟩ := hs.extend rest
      exact ⟨_, _, hwalk, List.mem_append_left _ hs.here_mem⟩
    | inside b inner =>
      obtain ⟨path, stops, hwalk, hmem⟩ := hbranch b inner st hpos
      have hne : s.branch b ≠ [] := by
        intro hnil
        simp [Position.find?, hnil] at hpos
      obtain ⟨path', stops', hwalk⟩ := (Walk.of_branch hne hwalk).extend rest
      exact ⟨_, _, hwalk, List.mem_append_left _ (by simpa using hmem)⟩
    | behind pos =>
      have hne : rest ≠ [] := by
        rintro rfl
        simp [Position.find?] at hpos
      obtain ⟨path, hs⟩ := hleave hne
      obtain ⟨path', stops, hwalk, hmem⟩ := hrest pos st hpos
      exact ⟨_, _, .go hs hwalk, List.mem_append_right _ (by simpa using hmem)⟩

theorem fallsOff_cons : FallsOff (s :: rest) ↔ (∃ path, s.Walk path false) ∧ FallsOff rest := by
  constructor
  · rintro ⟨path, h⟩
    cases h with
    | go hs hrest => exact ⟨⟨_, hs⟩, _, hrest⟩
  · rintro ⟨⟨path, hs⟩, path', hrest⟩
    exact ⟨_, .go hs hrest⟩

/-- A conditional is left without a return if one of its branches is. -/
theorem exists_walk_ifElse {test : Expr} {yes no : List Stmt} :
    (∃ path, (Stmt.ifElse test yes no).Walk path false) ↔ FallsOff yes ∨ FallsOff no := by
  constructor
  · rintro ⟨path, h⟩
    cases h with
    | ifElse b h =>
      cases b with
      | true => exact .inl ⟨_, h⟩
      | false => exact .inr ⟨_, h⟩
  · rintro (⟨path, h⟩ | ⟨path, h⟩)
    · exact ⟨_, .ifElse true h⟩
    · exact ⟨_, .ifElse false h⟩

/-! ## The verifier's truth value -/

mutual

theorem returns_false_iff {b : Bool} : ∀ {s : Stmt}, s.returns kind = .ok b →
    (b = false ↔ ∃ path, s.Walk path false)
  | .expr e, h => by
    cases h
    exact iff_of_true rfl ⟨_, .expr e⟩
  | .set target value, h => by
    cases h
    exact iff_of_true rfl ⟨_, .set target value⟩
  | .ret value, h => by
    simp only [Stmt.returns] at h
    split at h
    · cases h
      refine iff_of_false (by simp) ?_
      rintro ⟨path, hwalk⟩
      cases hwalk
    · cases h
  | .ifThen test body, h => by
    obtain ⟨_, -, h⟩ := parts_ok h
    cases h
    exact iff_of_true rfl ⟨_, .ifThen false .nil⟩
  | .ifElse test yes no, h => by
    obtain ⟨b₁, hyes, h⟩ := parts_ok h
    obtain ⟨b₂, hno, h⟩ := parts_ok h
    cases h
    rw [exists_walk_ifElse, ← blockReturns_false_iff hyes, ← blockReturns_false_iff hno, Bool.and_eq_false_iff]

/-- The truth value of a block that is accepted is false exactly if a walk falls off its end. -/
theorem blockReturns_false_iff {b : Bool} : ∀ {ss : List Stmt}, blockReturns kind ss = .ok b →
    (b = false ↔ FallsOff ss)
  | [], h => by
    cases h
    exact iff_of_true rfl ⟨_, .nil⟩
  | s :: rest, h => by
    obtain ⟨b', hs, h⟩ := parts_ok h
    rw [fallsOff_cons, ← returns_false_iff hs]
    cases b' with
    | true =>
      have hb : b = true := by
        cases rest with
        | nil => cases h; rfl
        | cons s' rest => cases h
      simp [hb]
    | false => simpa using blockReturns_false_iff h

end

theorem blockReturns_cons_succeeds : Succeeds (blockReturns kind (s :: rest)) ↔
    ∃ b, s.returns kind = .ok b ∧ (b = true → rest = []) ∧ (b = false → Succeeds (blockReturns kind rest)) := by
  simp only [blockReturns]
  rw [succeeds_bind]
  refine exists_congr fun b => and_congr_right fun _ => ?_
  cases b with
  | true => cases rest <;> simp
  | false => simp

mutual

theorem returns_succeeds_iff : ∀ s : Stmt, Succeeds (s.returns kind) ↔
    (∀ value, s = .ret value → (value.isSome = true ↔ kind = .func)) ∧
      ∀ b, ReturnsFit kind (s.branch b) ∧ AllReached (s.branch b)
  | .expr e => by simp [Stmt.returns, Stmt.branch, returnsFit_nil, allReached_nil]
  | .set target value => by simp [Stmt.returns, Stmt.branch, returnsFit_nil, allReached_nil]
  | .ret value => by
    simp only [Stmt.returns, Stmt.branch, returnsFit_nil, allReached_nil, Stmt.ret.injEq, forall_eq', and_true,
      implies_true]
    split
    · simp_all
    · simp_all
  | .ifThen test body => by
    simp only [Stmt.returns, succeeds_bind_pure, Bool.forall_bool, Stmt.branch, reduceCtorEq, false_implies,
      implies_true, true_and, returnsFit_nil, allReached_nil]
    exact blockReturns_succeeds_iff body
  | .ifElse test yes no => by
    simp only [Stmt.returns, Bool.forall_bool, Stmt.branch, reduceCtorEq, false_implies, implies_true, true_and]
    rw [and_comm]
    refine succeeds_bind_and (blockReturns_succeeds_iff yes) fun b => ?_
    rw [succeeds_bind_pure]
    exact blockReturns_succeeds_iff no

/-- A block is accepted exactly if its returns fit the kind and all of its statements are reached. -/
theorem blockReturns_succeeds_iff : ∀ ss : List Stmt,
    Succeeds (blockReturns kind ss) ↔ ReturnsFit kind ss ∧ AllReached ss
  | [] => by simp [blockReturns, returnsFit_nil, allReached_nil]
  | s :: rest => by
    have hs := returns_succeeds_iff s
    have hrest := blockReturns_succeeds_iff rest
    rw [blockReturns_cons_succeeds, returnsFit_cons, allReached_cons]
    constructor
    · rintro ⟨b, hb, hstop, hgo⟩
      obtain ⟨hret, hbranch⟩ := hs.1 ⟨b, hb⟩
      have hfit : ReturnsFit kind rest ∧ AllReached rest := by
        cases b with
        | true =>
          cases hstop rfl
          exact ⟨returnsFit_nil, allReached_nil⟩
        | false => exact hrest.1 (hgo rfl)
      refine ⟨⟨hret, fun b => (hbranch b).1, hfit.1⟩, fun b => (hbranch b).2, fun hne => ?_, hfit.2⟩
      refine (returns_false_iff hb).1 (Bool.eq_false_iff.2 fun htrue => ?_)
      exact hne (hstop htrue)
    · rintro ⟨⟨hret, hfitBranch, hfit⟩, hreachedBranch, hleave, hreached⟩
      obtain ⟨b, hb⟩ := hs.2 ⟨hret, fun b => ⟨hfitBranch b, hreachedBranch b⟩⟩
      refine ⟨b, hb, fun htrue => ?_, fun _ => hrest.2 ⟨hfit, hreached⟩⟩
      cases rest with
      | nil => rfl
      | cons s' rest => cases htrue.symm.trans ((returns_false_iff hb).2 (hleave (List.cons_ne_nil s' rest)))

end

end Stmt

end Wordlang
