import Wordlang.Proofs.Parser.Progress

/-!
# The parser with a counter: `descend`, `ascend`

The parsers of expressions and statements are told how many levels of nesting are left, and their repetitions have
bounds. Here they are once more as parsers with a counter: they count the levels that they are in, go down one at the
token that opens a construct and come back up behind the one that closes it, and their loops go on for as long as
there is an item. Such a parser might run for ever, or come up more often than it has gone down. It does neither: it
ends as the other one does, and on the level on which it has started.

As for runs of the machine, a number bounds how far a parser may get: here it is the number of calls and rounds within
each other. `none` is a parser that the bound has cut off, and a parser ends if all large bounds let it.

Main statement: `DescentM.takes_all_or_nothing`.
-/

namespace Wordlang

/-- A level of nesting. There is none below the limit. -/
abbrev Level := Fin (maxNesting + 1)

/-- Where a parser stands: the tokens in front of it and the level that it is on. -/
structure ParseState where
  lexer : Lexer
  depth : Level

/-- Why a parser with a counter stops: at an error, or because it would come up from the outermost level. -/
inductive Halt
  | failed (e : ParseError)
  | underflow

/-- Parsers with a counter; `none` is one that has been cut off. -/
abbrev DescentM := StateT ParseState (ExceptT Halt Option)

namespace ParseState

/-- The state of a parser that has read nothing. -/
def start (l : Lexer) : ParseState := ⟨l, 0⟩

/-- The levels that are left. -/
def room (s : ParseState) : Nat := maxNesting - s.depth.val

theorem room_add_depth (s : ParseState) : s.room + s.depth.val = maxNesting :=
  Nat.sub_add_cancel (Nat.le_of_lt_succ s.depth.isLt)

end ParseState

namespace DescentM

open ParseM (accept expect fail next peek revert)

variable {α β : Type}

/-! ## Parsers -/

/-- The end of a run on level `d`, for that of a parser without a counter. -/
def outcome (d : Level) : Except ParseError (α × Lexer) → Except Halt (α × ParseState)
  | .ok (a, l) => .ok (a, ⟨l, d⟩)
  | .error e => .error (.failed e)

/-- A parser that stays on its level. -/
def lift (x : ParseM α) : DescentM α := fun s => some (outcome s.depth (x s.lexer))

/-- Goes one level down into what starts at `loc`. -/
def descend (loc : Location) : DescentM Unit := fun s =>
  if h : s.depth.val + 1 < maxNesting + 1 then some (.ok ((), ⟨s.lexer, ⟨s.depth.val + 1, h⟩⟩))
  else some (.error (.failed ⟨.codeTooDeep, loc⟩))

/-- Comes back up. -/
def ascend : DescentM Unit := fun s =>
  match s.depth with
  | ⟨0, _⟩ => some (.error .underflow)
  | ⟨depth + 1, h⟩ => some (.ok ((), ⟨s.lexer, ⟨depth, Nat.lt_of_succ_lt h⟩⟩))

/-- An expression that may not be missing. -/
def demand (place : ParseError.Place) : Option α → DescentM α
  | some a => return a
  | none => do
    let t ← lift peek
    lift (fail (.expected (.expression place) t.kind) t.loc)

def cutOff : DescentM α := fun _ => none

/-- What a repetition does behind an item. -/
def behind (rest : DescentM (List α)) : Option α → DescentM (List α)
  | none => return []
  | some a => return a :: (← rest)

/-- All items up to the first that is missing. -/
def repeated (item : Nat → DescentM (Option α)) : Nat → DescentM (List α)
  | 0 => cutOff
  | n + 1 => item n >>= behind (repeated item n)

/-- What follows a sign at `loc`. -/
def signed (op : UnaryOp) (loc : Location) (operand : DescentM (Option Measured)) : DescentM Measured := do
  descend loc
  let e ← demand (.afterSign op) (← operand)
  ascend
  return .unary op e

/-- An atom from its first token on; `whole` parses what is in parentheses and `operand` what is behind a sign. -/
def atomFrom (arguments : String → DescentM (List Measured)) (whole operand : DescentM (Option Measured)) (t : Token) :
    DescentM (Option Measured) := do
  match t.kind with
  | .number value => return some (.num value)
  | .ident name =>
    if ← lift (accept .lparen) then
      descend t.loc
      let args ← arguments name
      ascend
      return some (.call name args)
    else
      return some (.var name)
  | .lparen =>
    descend t.loc
    let e ← demand .afterParen (← whole)
    let _ ← lift (expect .rparen .afterGroup)
    ascend
    return some e
  | .plus => some <$> signed .identity t.loc operand
  | .minus => some <$> signed .negate t.loc operand
  | _ =>
    lift (revert t)
    return none

mutual

/-- An atom followed by operators of at least the given level. -/
def binary : Nat → Nat → DescentM (Option Measured)
  | 0, _ => cutOff
  | n + 1, level => do
    match ← atom n with
    | none => return none
    | some e => return some (← operators n level e)

/-- The operators behind an operand. -/
def operators : Nat → Nat → Measured → DescentM Measured
  | 0, _, _ => cutOff
  | n + 1, level, left => do
    let t ← lift next
    match t.kind.binaryOp? with
    | some op =>
      if level ≤ op.precedence then
        let right ← demand (.afterOperator op) (← binary n (op.precedence + 1))
        let e := Measured.binary op left right
        if maxNesting + 1 < e.height then lift (fail .expressionTooDeep t.loc) else operators n level e
      else
        lift (revert t)
        return left
    | none =>
      lift (revert t)
      return left

def arguments : Nat → String → DescentM (List Measured)
  | 0, _ => cutOff
  | n + 1, callee => do
    if ← lift (accept .rparen) then
      return []
    else
      let first ← demand (.inArgs callee) (← binary n 0)
      let more ← moreArguments n callee
      let _ ← lift (expect .rparen (.afterArgs callee))
      return first :: more

def nextArgument : Nat → String → DescentM (Option Measured)
  | 0, _ => cutOff
  | n + 1, callee => do
    if ← lift (accept .comma) then
      return some (← demand (.inArgs callee) (← binary n 0))
    else
      return none

def moreArguments : Nat → String → DescentM (List Measured)
  | 0, _ => cutOff
  | n + 1, callee => nextArgument n callee >>= behind (moreArguments n callee)

def atom : Nat → DescentM (Option Measured)
  | 0 => cutOff
  | n + 1 => do
    let t ← lift next
    atomFrom (arguments n) (binary n 0) (atom n) t

end

/-- A whole expression. -/
def expression (n : Nat) : DescentM (Option Expr) := do
  let start ← lift peek
  match ← binary n 0 with
  | none => return none
  | some e =>
    if maxNesting < (← get).depth.val + e.height - 1 then
      lift (fail .expressionTooDeep start.loc)
    else
      return some e.expr

mutual

def statement : Nat → DescentM (Option Stmt)
  | 0 => cutOff
  | n + 1 => do
    if ← lift (accept .kwReturn) then
      let value ← expression n
      let _ ← lift (expect .semicolon .afterReturn)
      return some (.ret value)
    else
      match ← lift ParseM.assignee with
      | some target =>
        let value ← demand .afterAssign (← expression n)
        let _ ← lift (expect .semicolon .afterAssignment)
        return some (.set target value)
      | none =>
        if ← lift (accept .kwIf) then
          return some (← conditional n)
        else
          let t ← lift peek
          if t.kind = .kwFunc ∨ t.kind = .kwProc then
            lift (fail (.nestedFunction t.kind) t.loc)
          else
            match ← expression n with
            | none => return none
            | some e =>
              let _ ← lift (expect .semicolon .afterExpr)
              return some (.expr e)

/-- What follows `if`. -/
def conditional : Nat → DescentM Stmt
  | 0 => cutOff
  | n + 1 => do
    let _ ← lift (expect .lparen .afterIf)
    let test ← demand .inCondition (← expression n)
    let _ ← lift (expect .rparen .afterCondition)
    let yes ← block n .afterCondition
    if ← lift (accept .kwElse) then
      return .ifElse test yes (← block n .afterElse)
    else
      return .ifThen test yes

/-- Statements in braces. -/
def block : Nat → ParseError.Place → DescentM (List Stmt)
  | 0, _ => cutOff
  | n + 1, place => do
    let brace ← lift (expect .lbrace place)
    descend brace.loc
    let body ← statements n
    let _ ← lift (expect .rbrace .afterBlock)
    ascend
    return body

def statements : Nat → DescentM (List Stmt)
  | 0 => cutOff
  | n + 1 => statement n >>= behind (statements n)

end

def names (list : ParseError.NameList) (n : Nat) : DescentM (List String) := do
  let t ← lift next
  match t.kind with
  | .ident first =>
    let more ← repeated (fun _ => lift (ParseM.afterComma (ParseM.identifier (.afterNameComma list)))) n
    return first :: more
  | _ =>
    lift (revert t)
    return []

def localNames (n : Nat) : DescentM (List String) := do
  if ← lift (accept .kwVar) then
    let locals ← names .locals n
    let _ ← lift (expect .semicolon .afterLocals)
    return locals
  else
    return []

/-- What follows `func` or `proc`. -/
def declaration (kind : FunctionKind) (n : Nat) : DescentM Function := do
  let name ← lift (ParseM.identifier .afterFunctionKeyword)
  let _ ← lift (expect .lparen .afterFunctionName)
  let params ← names .params n
  let _ ← lift (expect .rparen .afterParams)
  let _ ← lift (expect .lbrace .beforeBody)
  let locals ← localNames n
  let body ← statements n
  let _ ← lift (expect .rbrace .afterBody)
  return { name, params, locals, body, kind }

def function (n : Nat) : DescentM (Option Function) := do
  let t ← lift next
  match t.kind with
  | .kwFunc => return some (← declaration .func n)
  | .kwProc => return some (← declaration .proc n)
  | _ =>
    lift (revert t)
    return none

def program (n : Nat) : DescentM Program := do
  let functions ← repeated function n
  let t ← lift next
  if t.kind = .eof then
    return functions
  else
    lift (fail (.expected .endOfInput t.kind) t.loc)

/-! ## Runs that end -/

/-- The run ends so, unless it is cut off too early. -/
def Ends (x : Nat → DescentM α) (s : ParseState) (r : Except Halt (α × ParseState)) : Prop :=
  ∃ bound, ∀ n ≥ bound, x n s = some r

theorem bind_run {x : DescentM α} {f : α → DescentM β} {s s' : ParseState} {a : α}
    (h : x s = some (.ok (a, s'))) : (x >>= f) s = f a s' := by
  change Option.bind (x s) _ = _
  rw [h]
  rfl

theorem bind_error {x : DescentM α} {f : α → DescentM β} {s : ParseState} {e : Halt}
    (h : x s = some (.error e)) : (x >>= f) s = some (.error e) := by
  change Option.bind (x s) _ = _
  rw [h]
  rfl

namespace Ends

variable {x x' : Nat → DescentM α} {s s' : ParseState}

theorem bind {f : Nat → α → DescentM β} {a : α} {r : Except Halt (β × ParseState)} (hx : Ends x s (.ok (a, s')))
    (hf : Ends (fun n => f n a) s' r) : Ends (fun n => x n >>= f n) s r := by
  obtain ⟨bound, hx⟩ := hx
  obtain ⟨bound', hf⟩ := hf
  exact ⟨max bound bound', fun n hn => (bind_run (hx n (by omega))).trans (hf n (by omega))⟩

theorem bind_error {f : Nat → α → DescentM β} {e : Halt} (hx : Ends x s (.error e)) :
    Ends (fun n => x n >>= f n) s (.error e) := by
  obtain ⟨bound, hx⟩ := hx
  exact ⟨bound, fun n hn => DescentM.bind_error (hx n hn)⟩

/-- Two runs in a row, each of which ends as one without a counter. -/
theorem sequence {d d₁ d' : Level} {l : Lexer} {y : ParseM α} {f : Nat → α → DescentM β} {g : α → ParseM β}
    (hx : Ends x ⟨l, d⟩ (outcome d₁ (y l)))
    (hf : ∀ a l', y l = .ok (a, l') → Ends (fun n => f n a) ⟨l', d₁⟩ (outcome d' (g a l'))) :
    Ends (fun n => x n >>= f n) ⟨l, d⟩ (outcome d' ((y >>= g) l)) := by
  cases hy : y l with
  | error e =>
    rw [hy] at hx
    rw [ParseM.bind_error hy]
    exact hx.bind_error
  | ok r =>
    rw [hy] at hx
    rw [ParseM.bind_run hy]
    exact hx.bind (hf r.1 r.2 hy)

/-- One more call around a run. -/
theorem call {r : Except Halt (α × ParseState)} (h : ∀ n, x' (n + 1) = x n) (hx : Ends x s r) : Ends x' s r := by
  obtain ⟨bound, hx⟩ := hx
  refine ⟨bound + 1, fun n hn => ?_⟩
  obtain ⟨m, rfl⟩ : ∃ m, n = m + 1 := ⟨n - 1, by omega⟩
  rw [h, hx m (by omega)]

end Ends

/-! ## Runs that end as those without a counter -/

/-- From level `d` the parser ends as `y` does, on level `d'`. -/
def Settles (d d' : Level) (x : Nat → DescentM α) (y : ParseM α) : Prop := ∀ l, Ends x ⟨l, d⟩ (outcome d' (y l))

namespace Settles

variable {d d₁ d' : Level} {x x' : Nat → DescentM α} {y : ParseM α}

theorem lift (y : ParseM α) : Settles d d (fun _ => lift y) y := fun _ => ⟨0, fun _ _ => rfl⟩

theorem pure (a : α) : Settles d d (fun _ => pure a) (pure a) := fun _ => ⟨0, fun _ _ => rfl⟩

theorem bind {f : Nat → α → DescentM β} {g : α → ParseM β} (hx : Settles d d₁ x y)
    (hf : ∀ a, Settles d₁ d' (fun n => f n a) (g a)) : Settles d d' (fun n => x n >>= f n) (y >>= g) :=
  fun l => (hx l).sequence fun a l' _ => hf a l'

theorem read {f : Nat → α → DescentM β} {g : α → ParseM β} (hf : ∀ a, Settles d d' (fun n => f n a) (g a)) :
    Settles d d' (fun n => DescentM.lift y >>= f n) (y >>= g) :=
  (lift y).bind hf

theorem call (h : ∀ n, x' (n + 1) = x n) (hx : Settles d d' x y) : Settles d d' x' y := fun l => (hx l).call h

/-- Takes an item that may not be missing. -/
theorem demanded {x : Nat → DescentM (Option α)} {y : ParseM (Option α)} {f : Nat → α → DescentM β}
    {g : α → ParseM β} (place : ParseError.Place) (hx : Settles d d₁ x y)
    (hf : ∀ a, Settles d₁ d' (fun n => f n a) (g a)) :
    Settles d d' (fun n => x n >>= fun r => demand place r >>= f n) (ParseM.required place y >>= g) := by
  unfold ParseM.required
  rw [bind_assoc]
  refine hx.bind fun r => ?_
  cases r with
  | none =>
    simp only [demand, bind_assoc]
    exact read fun t => read hf
  | some a =>
    simp only [demand, pure_bind]
    exact hf a

/-- Goes down where the parser without a counter has a level left. -/
theorem descended {inner : Option α} {x : Nat → DescentM β} {k : α → ParseM β} (loc : Location)
    (hinner : inner = none ↔ d.val = maxNesting)
    (hx : ∀ a, inner = some a → ∀ d₁ : Level, d₁.val = d.val + 1 → Settles d₁ d' x (k a)) :
    Settles d d' (fun n => descend loc >>= fun _ => x n) (ParseM.enter inner loc >>= k) := by
  intro l
  cases inner with
  | none =>
    have hd : ¬ d.val + 1 < maxNesting + 1 := by rw [hinner.1 rfl]; omega
    have hdown : descend loc ⟨l, d⟩ = some (.error (.failed ⟨.codeTooDeep, loc⟩)) := dif_neg hd
    exact Ends.bind_error ⟨0, fun _ _ => hdown⟩
  | some a =>
    have hne : d.val ≠ maxNesting := mt hinner.2 (by simp)
    have hd : d.val + 1 < maxNesting + 1 := by omega
    have hdown : descend loc ⟨l, d⟩ = some (.ok ((), ⟨l, ⟨d.val + 1, hd⟩⟩)) := dif_pos hd
    exact Ends.bind ⟨0, fun _ _ => hdown⟩ (hx a rfl ⟨d.val + 1, hd⟩ rfl l)

theorem ascended (hd : d₁.val = d.val + 1) (hx : Settles d d' x y) :
    Settles d₁ d' (fun n => ascend >>= fun _ => x n) y := by
  intro l
  have hlt : d.val + 1 < maxNesting + 1 := hd ▸ d₁.isLt
  have hup : ascend ⟨l, ⟨d.val + 1, hlt⟩⟩ = some (.ok ((), ⟨l, d⟩)) := rfl
  rw [Fin.ext hd (b := ⟨d.val + 1, hlt⟩)]
  exact Ends.bind ⟨0, fun _ _ => hup⟩ (hx l)

/-- A repetition ends, because every item that it finds leaves less in front of it. -/
theorem repeats {item : Nat → DescentM (Option α)} {loop : Nat → DescentM (List α)} {y : ParseM (Option α)}
    (hloop : ∀ n, loop (n + 1) = item n >>= behind (loop n)) (hitem : Settles d d item y)
    (hy : ParseM.AllOrNothing y) : Settles d d loop (ParseM.many y) := by
  intro l
  -- The other parser has a bound on its rounds; `many_eq` is what lets the two go on together.
  induction hlen : l.ahead.length using Nat.strong_induction_on generalizing l with
  | _ len ih =>
    subst hlen
    refine Ends.call hloop ?_
    rw [ParseM.many_eq hy]
    refine (hitem l).sequence fun r l' hrun => ?_
    cases r with
    | none => exact pure [] l'
    | some a =>
      have hrest := ih _ (hy.ahead_lt hrun) l' rfl
      rw [ParseM.behind, ← bind_pure_comp]
      exact hrest.sequence fun as l₁ _ => pure (a :: as) l₁

end Settles

/-! ## Expressions -/

section

variable {d : Level} {a : ParseM (Option Measured)}

/-- The loop over operators has `k` rounds left. Each of them makes the operand higher, which the limit stops before
they have run out. -/
theorem operators_settles {level : Nat}
    (hbinary : ∀ above, level < above → above ≤ 5 → Settles d d (binary · above) (ParseM.binary a above))
    (k : Nat) (left : Measured) (hpos : 1 ≤ k) (hk : maxNesting + 2 ≤ k + left.height) :
    Settles d d (operators · level left) (ParseM.upTo (ParseM.climb a level) k left) := by
  induction k generalizing left with
  | zero => omega
  | succ k ih =>
    refine Settles.call (fun n => by rw [operators]) ?_
    rw [ParseM.upTo, ParseM.climb, bind_assoc]
    refine Settles.read fun t => ?_
    cases t.kind.binaryOp? with
    | none => exact Settles.read fun _ => .pure left
    | some op =>
      dsimp only
      by_cases hlevel : level ≤ op.precedence
      · rw [if_pos hlevel]
        simp only [if_pos hlevel, bind_assoc]
        have hlt := op.precedence_lt
        refine (hbinary (op.precedence + 1) (by omega) (by omega)).demanded _ fun right => ?_
        by_cases hheight : maxNesting + 1 < (left.binary op right).height
        · simp only [if_pos hheight]
          exact .lift _
        · simp only [if_neg hheight, pure_bind]
          have hhigher := left.height_lt_binary op right
          exact ih _ (by omega) (by omega)
      · rw [if_neg hlevel]
        simp only [if_neg hlevel]
        exact Settles.read fun _ => .pure left

theorem binary_settles (hatom : Settles d d atom a) (level : Nat) :
    Settles d d (binary · level) (ParseM.binary a level) := by
  -- The right operands are parsed at higher levels, and no operator is above the fourth.
  induction hlow : 5 - level using Nat.strong_induction_on generalizing level with
  | _ low ih =>
    subst hlow
    refine Settles.call (fun n => by rw [binary]) ?_
    rw [ParseM.binary_eq]
    refine hatom.bind fun r => ?_
    cases r with
    | none => exact .pure none
    | some e =>
      simp only [← bind_pure_comp]
      have hheight := e.one_le_height
      have habove : ∀ above, level < above → above ≤ 5 → Settles d d (binary · above) (ParseM.binary a above) :=
        fun above hlt hle => ih _ (by omega) above rfl
      exact (operators_settles habove (maxNesting + 1) e (by omega) (by omega)).bind fun e => .pure (some e)

theorem nextArgument_settles (callee : String) (hbinary : Settles d d (binary · 0) (ParseM.binary a 0)) :
    Settles d d (nextArgument · callee)
      (ParseM.afterComma (ParseM.required (.inArgs callee) (ParseM.binary a 0))) := by
  refine Settles.call (fun n => by rw [nextArgument]) (Settles.read fun comma => ?_)
  cases comma with
  | false => exact .pure none
  | true =>
    simp only [← bind_pure_comp]
    exact hbinary.demanded _ fun e => .pure (some e)

theorem arguments_settles {callee : String} (hbinary : Settles d d (binary · 0) (ParseM.binary a 0))
    (hargument : ParseM.Advances (ParseM.required (.inArgs callee) (ParseM.binary a 0))) :
    Settles d d (arguments · callee) (ParseM.arguments callee (ParseM.binary a 0)) := by
  have hmore : Settles d d (moreArguments · callee)
      (ParseM.many (ParseM.afterComma (ParseM.required (.inArgs callee) (ParseM.binary a 0)))) :=
    Settles.repeats (fun n => by rw [moreArguments]) (nextArgument_settles callee hbinary)
      (ParseM.afterComma_allOrNothing hargument)
  refine Settles.call (fun n => by rw [arguments]) ?_
  rw [ParseM.arguments_eq]
  refine Settles.read fun closed => ?_
  cases closed with
  | true => exact .pure []
  | false => exact hbinary.demanded _ fun first => hmore.bind fun more => Settles.read fun _ => .pure (first :: more)

theorem signed_settles {inner : Option (ParseM (Option Measured))} (op : UnaryOp) (loc : Location)
    (hinner : inner = none ↔ d.val = maxNesting)
    (hatom : ∀ a, inner = some a → ∀ d₁ : Level, d₁.val = d.val + 1 → Settles d₁ d₁ atom a) :
    Settles d d (fun n => some <$> signed op loc (atom n))
      (ParseM.enter inner loc >>= fun a => some <$> ParseM.signed op a) := by
  simp only [signed, ParseM.signed, ← bind_pure_comp, bind_assoc, pure_bind]
  refine Settles.descended loc hinner fun a ha d₁ hd => ?_
  exact (hatom a ha d₁ hd).demanded _ fun e => Settles.ascended hd (.pure (some (Measured.unary op e)))

theorem atomWith_settles {inner : Option (ParseM (Option Measured))} (hinner : inner = none ↔ d.val = maxNesting)
    (hatom : ∀ a, inner = some a → ∀ d₁ : Level, d₁.val = d.val + 1 → Settles d₁ d₁ atom a)
    (hargument : ∀ a, inner = some a → ∀ callee,
      ParseM.Advances (ParseM.required (.inArgs callee) (ParseM.binary a 0))) :
    Settles d d atom (ParseM.atomWith inner) := by
  refine Settles.call (fun n => by rw [atom]) ?_
  unfold ParseM.atomWith
  refine Settles.read fun t => ?_
  obtain ⟨kind, loc⟩ := t
  -- Each construct is parsed on the level below up to its last token, and only then comes the way back up.
  cases kind with
  | number value => exact .pure _
  | ident name =>
    refine Settles.read fun opened => ?_
    cases opened with
    | false => exact .pure _
    | true =>
      refine Settles.descended loc hinner fun a ha d₁ hd => ?_
      have hbinary := binary_settles (hatom a ha d₁ hd) 0
      exact (arguments_settles hbinary (hargument a ha name)).bind fun args => Settles.ascended hd (.pure _)
  | lparen =>
    refine Settles.descended loc hinner fun a ha d₁ hd => ?_
    have hbinary := binary_settles (hatom a ha d₁ hd) 0
    exact hbinary.demanded _ fun e => Settles.read fun _ => Settles.ascended hd (.pure (some e))
  | plus => exact signed_settles .identity loc hinner hatom
  | minus => exact signed_settles .negate loc hinner hatom
  | _ => exact Settles.read fun _ => .pure none

theorem atom_settles (room : Nat) {d : Level} (hroom : room + d.val = maxNesting) :
    Settles d d atom (ParseM.atom room) := by
  induction room generalizing d with
  | zero =>
    have hd : d.val = maxNesting := by omega
    exact atomWith_settles ⟨fun _ => hd, fun _ => rfl⟩ (by simp) (by simp)
  | succ room ih =>
    have hd : d.val ≠ maxNesting := by omega
    have hroom' : room ≤ maxNesting := by omega
    have hinner : some (ParseM.atom room) = none ↔ d.val = maxNesting := ⟨by simp, fun h => absurd h hd⟩
    refine atomWith_settles hinner ?_ ?_
    · rintro a ⟨⟩ d₁ hd₁
      exact ih (by omega)
    · rintro a ⟨⟩ callee
      exact ParseM.argument_advances hroom' callee

theorem expression_settles (room : Nat) {d : Level} (hroom : room + d.val = maxNesting) :
    Settles d d expression (ParseM.expression room) := by
  unfold expression ParseM.expression
  refine Settles.read fun start => (binary_settles (atom_settles room hroom) 0).bind fun r => ?_
  cases r with
  | none => exact .pure none
  | some e =>
    intro l
    have hget : (get : DescentM ParseState) ⟨l, d⟩ = some (.ok (⟨l, d⟩, ⟨l, d⟩)) := rfl
    refine Ends.bind ⟨0, fun _ _ => hget⟩ ?_
    have hpos := e.one_le_height
    -- One of them counts the levels that are left and the other those that it is in.
    by_cases hheight : room + 1 < e.height
    · have hdeep : maxNesting < d.val + e.height - 1 := by omega
      simp only [if_pos hheight, if_pos hdeep]
      exact Settles.lift _ l
    · have hdeep : ¬ maxNesting < d.val + e.height - 1 := by omega
      simp only [if_neg hheight, if_neg hdeep]
      exact Settles.pure (some e.expr) l

end

/-! ## Statements -/

section

variable {d : Level} {room : Nat} {inner : Option (ParseM (Option Stmt))}

theorem block_settles (place : ParseError.Place) (hinner : inner = none ↔ d.val = maxNesting)
    (hstatements : ∀ y, inner = some y → ∀ d₁ : Level, d₁.val = d.val + 1 → Settles d₁ d₁ statements (ParseM.many y)) :
    Settles d d (block · place) (ParseM.block place inner) := by
  refine Settles.call (fun n => by rw [block]) ?_
  unfold ParseM.block
  refine Settles.read fun brace => Settles.descended brace.loc hinner fun y hy d₁ hd => ?_
  exact (hstatements y hy d₁ hd).bind fun body => Settles.read fun _ => Settles.ascended hd (.pure body)

theorem conditional_settles (hexpression : Settles d d expression (ParseM.expression room))
    (hblock : ∀ place, Settles d d (block · place) (ParseM.block place inner)) :
    Settles d d conditional (ParseM.conditional room inner) := by
  refine Settles.call (fun n => by rw [conditional]) ?_
  unfold ParseM.conditional
  refine Settles.read fun _ => hexpression.demanded _ fun test => Settles.read fun _ => ?_
  refine (hblock .afterCondition).bind fun yes => Settles.read fun more => ?_
  cases more with
  | false => exact .pure _
  | true => exact (hblock .afterElse).bind fun no => .pure _

theorem statementWith_settles (hexpression : Settles d d expression (ParseM.expression room))
    (hconditional : Settles d d conditional (ParseM.conditional room inner)) :
    Settles d d statement (ParseM.statementWith room inner) := by
  refine Settles.call (fun n => by rw [statement]) ?_
  unfold ParseM.statementWith
  refine Settles.read fun leaves => ?_
  cases leaves with
  | true => exact hexpression.bind fun value => Settles.read fun _ => .pure _
  | false =>
    refine Settles.read fun target => ?_
    cases target with
    | some target => exact hexpression.demanded _ fun value => Settles.read fun _ => .pure _
    | none =>
      refine Settles.read fun branches => ?_
      cases branches with
      | true =>
        simp only [← bind_pure_comp]
        exact hconditional.bind fun s => .pure (some s)
      | false =>
        refine Settles.read fun t => ?_
        by_cases hnested : t.kind = .kwFunc ∨ t.kind = .kwProc
        · simp only [if_pos hnested]
          exact .lift _
        · simp only [if_neg hnested]
          refine hexpression.bind fun r => ?_
          cases r with
          | none => exact .pure none
          | some e => exact Settles.read fun _ => .pure _

end

theorem statement_settles (room : Nat) {d : Level} (hroom : room + d.val = maxNesting) :
    Settles d d statement (ParseM.statement room) := by
  have hexpression := expression_settles room hroom
  induction room generalizing d with
  | zero =>
    have hinner : (none : Option (ParseM (Option Stmt))) = none ↔ d.val = maxNesting :=
      ⟨fun _ => by omega, fun _ => rfl⟩
    have hblock := fun place => block_settles place hinner (by simp)
    exact statementWith_settles hexpression (conditional_settles hexpression hblock)
  | succ room ih =>
    have hinner : some (ParseM.statement room) = none ↔ d.val = maxNesting := ⟨by simp, fun h => by omega⟩
    refine statementWith_settles hexpression (conditional_settles hexpression fun place => ?_)
    refine block_settles place hinner ?_
    rintro y ⟨⟩ d₁ hd
    have hroom₁ : room + d₁.val = maxNesting := by omega
    have hstatement := ih hroom₁ (expression_settles room hroom₁)
    exact Settles.repeats (fun n => by rw [statements]) hstatement (ParseM.statement_allOrNothing (by omega))

theorem statements_settles {room : Nat} {d : Level} (hroom : room + d.val = maxNesting) :
    Settles d d statements (ParseM.many (ParseM.statement room)) := by
  have hstatement := statement_settles room hroom
  exact Settles.repeats (fun n => by rw [statements]) hstatement (ParseM.statement_allOrNothing (by omega))

/-! ## Programs -/

section

variable {d : Level}

theorem repeated_settles {item : Nat → DescentM (Option α)} {y : ParseM (Option α)} (hitem : Settles d d item y)
    (hy : ParseM.AllOrNothing y) : Settles d d (repeated item) (ParseM.many y) :=
  Settles.repeats (fun n => by rw [repeated]) hitem hy

theorem names_settles (list : ParseError.NameList) : Settles d d (names list) (ParseM.names list) := by
  rw [ParseM.names_eq]
  unfold names
  refine Settles.read fun t => ?_
  obtain ⟨kind, loc⟩ := t
  cases kind with
  | ident first =>
    have hnames := ParseM.afterComma_allOrNothing (ParseM.identifier_advances (.afterNameComma list))
    exact (repeated_settles (.lift _) hnames).bind fun more => .pure _
  | _ => exact Settles.read fun _ => .pure []

theorem localNames_settles : Settles d d localNames ParseM.localNames := by
  unfold localNames ParseM.localNames
  refine Settles.read fun declares => ?_
  cases declares with
  | false => exact .pure []
  | true => exact (names_settles .locals).bind fun locals => Settles.read fun _ => .pure locals

variable {body : ParseM (List Stmt)}

theorem declaration_settles (kind : FunctionKind) (hbody : Settles d d statements body) :
    Settles d d (declaration kind) (ParseM.declarationWith body kind) := by
  unfold declaration ParseM.declarationWith
  refine Settles.read fun name => Settles.read fun _ => (names_settles .params).bind fun params => ?_
  refine Settles.read fun _ => Settles.read fun _ => localNames_settles.bind fun locals => ?_
  exact hbody.bind fun body => Settles.read fun _ => .pure _

theorem function_settles (hbody : Settles d d statements body) :
    Settles d d function (ParseM.functionWith body) := by
  unfold function ParseM.functionWith
  refine Settles.read fun t => ?_
  obtain ⟨kind, loc⟩ := t
  cases kind with
  | kwFunc =>
    simp only [← bind_pure_comp]
    exact (declaration_settles .func hbody).bind fun f => .pure (some f)
  | kwProc =>
    simp only [← bind_pure_comp]
    exact (declaration_settles .proc hbody).bind fun f => .pure (some f)
  | _ => exact Settles.read fun _ => .pure none

theorem program_settles (hbody : Settles d d statements body) (hadvances : ParseM.Advances body) :
    Settles d d program (ParseM.programWith body) := by
  unfold program ParseM.programWith
  have hfunctions := repeated_settles (function_settles hbody) (ParseM.functionWith_allOrNothing hadvances)
  refine hfunctions.bind fun functions => Settles.read fun t => ?_
  by_cases heof : t.kind = .eof
  · simp only [if_pos heof]
    exact .pure functions
  · simp only [if_neg heof]
    exact .lift _

end

/-! ## All or nothing -/

/-- The parser ends as `y` does, on the level on which it has started. If it has found nothing, there is still
everything to deliver. If it has found something, it has taken tokens, at least one, and what is left is the rest. -/
inductive TakesAllOrNothing (x : Nat → DescentM (Option α)) (y : ParseM (Option α)) (s : ParseState) : Prop
  | failed (e : ParseError) (hx : Ends x s (.error (.failed e))) (hy : y s.lexer = .error e)
  | nothing (l : Lexer) (hx : Ends x s (.ok (none, ⟨l, s.depth⟩))) (hy : y s.lexer = .ok (none, l))
      (hstream : l.stream = s.lexer.stream)
  | all (a : α) (l : Lexer) (ts : List Token) (hx : Ends x s (.ok (some a, ⟨l, s.depth⟩)))
      (hy : y s.lexer = .ok (some a, l)) (hne : ts ≠ []) (hpasses : s.lexer.Passes ts l)
      (hahead : s.lexer.ahead = ts.map .ok ++ l.ahead)

theorem Settles.takesAllOrNothing {x : Nat → DescentM (Option α)} {y : ParseM (Option α)} {s : ParseState}
    (hx : Settles s.depth s.depth x y) (hy : ParseM.AllOrNothing y) : TakesAllOrNothing x y s := by
  have hends := hx s.lexer
  cases hrun : y s.lexer with
  | error e =>
    rw [hrun] at hends
    exact .failed e hends hrun
  | ok r =>
    rw [hrun] at hends
    obtain ⟨a | a, l⟩ := r
    · exact .nothing l hends hrun (hy.none _ _ hrun)
    · obtain ⟨ts, hne, hpasses⟩ := hy.some _ _ _ hrun
      exact .all a l ts hends hrun hne hpasses hpasses.ahead

theorem function_takesAllOrNothing (s : ParseState) :
    TakesAllOrNothing function (ParseM.functionWith (ParseM.many (ParseM.statement s.room))) s := by
  have hroom := s.room_add_depth
  have hadvances := ParseM.statements_advances (show s.room ≤ maxNesting by omega)
  exact (function_settles (statements_settles hroom)).takesAllOrNothing (ParseM.functionWith_allOrNothing hadvances)

theorem program_ends (s : ParseState) :
    Ends program s (outcome s.depth (ParseM.programWith (ParseM.many (ParseM.statement s.room)) s.lexer)) := by
  have hroom := s.room_add_depth
  have hadvances := ParseM.statements_advances (show s.room ≤ maxNesting by omega)
  exact program_settles (statements_settles hroom) hadvances s.lexer

/-- Wherever they start, the parsers of optional things take all or nothing and come back to the level on which they
have started. The repetitions end, and no parser comes up more often than it has gone down. At the outermost level these
are the parsers of functions and programs. -/
theorem takes_all_or_nothing :
    (∀ s : ParseState,
      TakesAllOrNothing function (ParseM.functionWith (ParseM.many (ParseM.statement s.room))) s ∧
      TakesAllOrNothing statement (ParseM.statement s.room) s ∧
      TakesAllOrNothing expression (ParseM.expression s.room) s ∧
      (∀ level, TakesAllOrNothing (binary · level) (ParseM.binary (ParseM.atom s.room) level) s) ∧
      TakesAllOrNothing atom (ParseM.atom s.room) s ∧
      Ends statements s (outcome s.depth (ParseM.many (ParseM.statement s.room) s.lexer)) ∧
      Ends program s (outcome s.depth (ParseM.programWith (ParseM.many (ParseM.statement s.room)) s.lexer))) ∧
    ∀ l, TakesAllOrNothing function ParseM.function (.start l) ∧
      Ends program (.start l) (outcome 0 (ParseM.program l)) := by
  refine ⟨fun s => ?_, fun l => ⟨function_takesAllOrNothing (.start l), program_ends (.start l)⟩⟩
  have hroom := s.room_add_depth
  have hle : s.room ≤ maxNesting := by omega
  have hatom := atom_settles s.room hroom
  refine ⟨function_takesAllOrNothing s, ?_, ?_, fun level => ?_, ?_, statements_settles hroom s.lexer, program_ends s⟩
  · exact (statement_settles s.room hroom).takesAllOrNothing (ParseM.statement_allOrNothing hle)
  · exact (expression_settles s.room hroom).takesAllOrNothing (ParseM.expression_allOrNothing hle)
  · exact (binary_settles hatom level).takesAllOrNothing (ParseM.binary_allOrNothing hle level)
  · exact hatom.takesAllOrNothing (ParseM.atom_allOrNothing hle)

end DescentM

end Wordlang
