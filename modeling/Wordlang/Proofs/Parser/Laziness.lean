import Wordlang.Proofs.Parser.Acceptance
import Wordlang.Proofs.Parser.Lookahead

/-!
# Reading on demand cannot be seen

The parser draws tokens one by one and hands some of them back. The parser over a list of tokens only looks
ahead. Side by side, function by function, they keep in step: the lexer has still to deliver what is left of the
list, and if the list ends early then an error comes next.

Main statement: `Program.parse_eq_ofTokens`. If a text has no lexical error, parsing it is parsing the list of
its tokens. If it has one, parsing it fails, with that error exactly if the tokens before it run out.
-/

namespace Wordlang

/-- What there is to read in a text: its tokens, and the error behind them if they do not reach the end of the
text. -/
structure Scan where
  tokens : List Token
  fault? : Option LexError

/-- How many tokens there are before the end of the text. -/
def Token.pending (ts : List Token) : Nat := ts.countP fun t => t.kind ≠ .eof

theorem Token.pending_cons {t : Token} (ht : t.kind ≠ .eof) (ts : List Token) : pending (t :: ts) = pending ts + 1 :=
  List.countP_cons_of_pos (by simpa using ht)

/-- The number of tokens that an optional thing takes at least. -/
def ParseM.found {α : Type} : Option α → Nat
  | none => 0
  | some _ => 1

/-- No lexical error, and located at one of the tokens. -/
def ParseError.Blames (ts : List Token) (e : ParseError) : Prop :=
  (∀ cause, e.cause ≠ .lexical cause) ∧ ∃ t ∈ ts, e.loc = t.loc

namespace Scan

/-- What is delivered starts with the tokens, and then comes the fault; without one the last token ends the text. -/
inductive Ahead (S : Scan) : Stream' (Except LexError Token) → List Token → Prop
  | last {t : Token} (s : Stream' (Except LexError Token)) : S.fault? = none → t.kind = .eof →
    Ahead S (Stream'.cons (.ok t) s) [t]
  | fault {e : LexError} (s : Stream' (Except LexError Token)) : S.fault? = some e →
    Ahead S (Stream'.cons (.error e) s) []
  | token {t : Token} {s : Stream' (Except LexError Token)} {ts : List Token} : t.kind ≠ .eof → Ahead S s ts →
    Ahead S (Stream'.cons (.ok t) s) (t :: ts)

/-- The lexer and the list are at the same place of the text. -/
structure Aligned (S : Scan) (l : Lexer) (ts : List Token) : Prop where
  ahead : S.Ahead l.stream ts
  within : ts ⊆ S.tokens

/-- The two parsers end alike. The list may run out only where the lexer fails. -/
inductive Agree (S : Scan) {α : Type} (Q : α → Lexer → List Token → Prop) :
    Except ParseError (α × Lexer) → Except Stop (α × List Token) → Prop
  | ok {a : α} {l : Lexer} {ts : List Token} : Q a l ts → Agree S Q (.ok (a, l)) (.ok (a, ts))
  | ranOut {e : LexError} : S.fault? = some e → Agree S Q (.error (.ofLexError e)) (.error .ranOut)
  | failed {e : ParseError} : e.Blames S.tokens → Agree S Q (.error e) (.error (.failed e))

/-- From one place the two parsers come to one place again, and have taken at least so many tokens. -/
def Simulates (S : Scan) {α : Type} (x : ParseM α) (y : LookM α) (took : α → Nat) : Prop :=
  ∀ l ts, S.Aligned l ts →
    S.Agree (fun a l' ts' => S.Aligned l' ts' ∧ Token.pending ts' + took a ≤ Token.pending ts) (x l) (y ts)

/-- The same, where the lexer has already delivered the token at which the list stands. -/
def Holding (S : Scan) {α : Type} (t : Token) (x : ParseM α) (y : LookM α) (took : α → Nat) : Prop :=
  ∀ l ts, S.Aligned (l.revert t) (t :: ts) →
    S.Agree (fun a l' ts' => S.Aligned l' ts' ∧ Token.pending ts' + took a ≤ Token.pending (t :: ts)) (x l)
      (y (t :: ts))

variable {S : Scan} {α β : Type} {l l' : Lexer} {t : Token} {ts : List Token}

/-! ## Places -/

namespace Ahead

variable {s : Stream' (Except LexError Token)}

theorem nil_cases (h : S.Ahead s []) : ∃ e s', S.fault? = some e ∧ s = Stream'.cons (.error e) s' := by
  cases h with
  | fault s' he => exact ⟨_, s', he, rfl⟩

/-- A token that ends the text is the last one, and only a text without a fault has it. -/
theorem cons_cases (h : S.Ahead s (t :: ts)) : ∃ s', s = Stream'.cons (.ok t) s' ∧
    (t.kind ≠ .eof ∧ S.Ahead s' ts ∨ t.kind = .eof ∧ S.fault? = none ∧ ts = []) := by
  cases h with
  | last s' hnone ht => exact ⟨s', rfl, .inr ⟨ht, hnone, rfl⟩⟩
  | token ht h => exact ⟨_, rfl, .inl ⟨ht, h⟩⟩

theorem append {before : List Token} (h : S.Ahead s ts) (hb : ∀ t ∈ before, t.kind ≠ .eof) :
    S.Ahead (before.map .ok ++ₛ s) (before ++ ts) := by
  induction before with
  | nil => exact h
  | cons t before ih =>
    exact .token (hb t List.mem_cons_self) (ih fun u hu => hb u (List.mem_cons_of_mem t hu))

end Ahead

namespace Aligned

theorem congr (h : S.Aligned l ts) (hs : l'.stream = l.stream) : S.Aligned l' ts := ⟨hs ▸ h.ahead, h.within⟩

theorem mem (h : S.Aligned l (t :: ts)) : t ∈ S.tokens := h.within List.mem_cons_self

/-- The lexer delivers the token at which the list stands. -/
theorem next (h : S.Aligned l (t :: ts)) : ∃ l', l.next = (.ok t, l') ∧ S.Aligned (l'.revert t) (t :: ts) := by
  obtain ⟨s, hs, -⟩ := h.ahead.cons_cases
  rw [Lexer.stream_eq] at hs
  obtain ⟨hn, -⟩ := Stream'.cons_injective2 hs
  have hnext : l.next = (.ok t, l.next.2) := by rw [← hn]
  exact ⟨l.next.2, hnext, h.congr (Lexer.delivers_of_next hnext).stream_revert⟩

/-- Where the list ends early the lexer fails. -/
theorem next_nil (h : S.Aligned l []) : ∃ e, S.fault? = some e ∧ ParseM.next l = .error (.ofLexError e) := by
  obtain ⟨e, s, he, hs⟩ := h.ahead.nil_cases
  rw [Lexer.stream_eq] at hs
  obtain ⟨hn, -⟩ := Stream'.cons_injective2 hs
  have hnext : l.next = (.error e, l.next.2) := by rw [← hn]
  exact ⟨e, he, by rw [ParseM.next, hnext]⟩

/-- Behind a token that does not end the text. -/
theorem tail (h : S.Aligned (l.revert t) (t :: ts)) (ht : t.kind ≠ .eof) : S.Aligned l ts := by
  refine ⟨?_, fun u hu => h.within (List.mem_cons_of_mem t hu)⟩
  obtain ⟨s, hs, ⟨-, ha⟩ | ⟨hk, -⟩⟩ := h.ahead.cons_cases
  · obtain ⟨-, hs⟩ := Stream'.cons_injective2 ((Lexer.delivers_revert l t).symm.trans hs)
    exact hs ▸ ha
  · exact absurd hk ht

theorem pending_le_size (h : S.Aligned l ts) : Token.pending ts ≤ l.size := by
  induction ts generalizing l with
  | nil => exact Nat.zero_le _
  | cons t ts ih =>
    obtain ⟨s, -, ⟨ht, -⟩ | ⟨ht, -, rfl⟩⟩ := h.ahead.cons_cases
    · obtain ⟨l', hn, h'⟩ := h.next
      have hle := ih (h'.tail ht)
      have hlt := Lexer.next_size_lt hn ht
      rw [Token.pending_cons ht]
      omega
    · simp [Token.pending, ht]

end Aligned

/-! ## Rules -/

namespace Agree

variable {Q : α → Lexer → List Token → Prop} {R : β → Lexer → List Token → Prop}

theorem imp {Q' : α → Lexer → List Token → Prop} {x : Except ParseError (α × Lexer)}
    {y : Except Stop (α × List Token)} (h : S.Agree Q x y) (hQ : ∀ a l ts, Q a l ts → Q' a l ts) :
    S.Agree Q' x y := by
  cases h with
  | ok hq => exact .ok (hQ _ _ _ hq)
  | ranOut he => exact .ranOut he
  | failed hb => exact .failed hb

theorem bind {x : ParseM α} {y : LookM α} {f : α → ParseM β} {g : α → LookM β} (h : S.Agree Q (x l) (y ts))
    (hf : ∀ a l' ts', Q a l' ts' → S.Agree R (f a l') (g a ts')) : S.Agree R ((x >>= f) l) ((y >>= g) ts) := by
  simp only [Bind.bind, StateT.bind]
  generalize x l = rx at h
  generalize y ts = ry at h
  cases h with
  | ok hq => exact hf _ _ _ hq
  | ranOut he => exact .ranOut he
  | failed hb => exact .failed hb

theorem look {f : Token → ParseM β} {g : Token → LookM β} (h : S.Aligned l ts)
    (hf : ∀ t us l', ts = t :: us → S.Aligned (l'.revert t) (t :: us) → S.Agree R (f t l') (g t (t :: us))) :
    S.Agree R ((ParseM.next >>= f) l) ((LookM.ahead 0 >>= g) ts) := by
  cases ts with
  | nil =>
    obtain ⟨e, he, hn⟩ := h.next_nil
    rw [ParseM.bind_error hn]
    exact .ranOut he
  | cons t us =>
    obtain ⟨l', hn, h'⟩ := h.next
    have hrun : ParseM.next l = .ok (t, l') := by rw [ParseM.next, hn]
    rw [ParseM.bind_run hrun]
    exact hf t us l' rfl h'

end Agree

namespace Simulates

variable {x : ParseM α} {y : LookM α} {took : α → Nat}

theorem pure {a : α} (h : took a = 0) : S.Simulates (Pure.pure a) (Pure.pure a) took := by
  intro l ts hal
  exact .ok ⟨hal, by omega⟩

theorem fail {cause : ParseError.Cause} {loc : Location} (hc : ∀ c, cause ≠ .lexical c) (ht : t ∈ S.tokens)
    (hl : loc = t.loc) : S.Simulates (ParseM.fail cause loc) (LookM.fail cause loc) took := by
  intro l ts _
  exact .failed ⟨hc, t, ht, hl⟩

theorem weaken {took' : α → Nat} (h : S.Simulates x y took) (hle : ∀ a, took' a ≤ took a) :
    S.Simulates x y took' := by
  intro l ts hal
  refine (h l ts hal).imp fun a l' ts' hq => ⟨hq.1, ?_⟩
  have := hq.2
  have := hle a
  omega

theorem bind {f : α → ParseM β} {g : α → LookM β} {r : β → Nat} (h : S.Simulates x y took)
    (hf : ∀ a, S.Simulates (f a) (g a) fun b => r b - took a) : S.Simulates (x >>= f) (y >>= g) r := by
  intro l ts hal
  refine (h l ts hal).bind fun a l' ts' hq => ?_
  refine (hf a l' ts' hq.1).imp fun b l'' ts'' hr => ⟨hr.1, ?_⟩
  have hle : Token.pending ts'' + (r b - took a) ≤ Token.pending ts' := hr.2
  have := hq.2
  omega

theorem map (f : α → β) {r : β → Nat} (h : S.Simulates x y fun a => r (f a)) :
    S.Simulates (f <$> x) (f <$> y) r := by
  rw [← bind_pure_comp, ← bind_pure_comp]
  exact h.bind fun a => pure (Nat.sub_self _)

theorem ite {p : Prop} [Decidable p] {x' : ParseM α} {y' : LookM α} (h : S.Simulates x y took)
    (h' : S.Simulates x' y' took) : S.Simulates (if p then x else x') (if p then y else y') took := by
  by_cases hp : p
  · rw [if_pos hp, if_pos hp]
    exact h
  · rw [if_neg hp, if_neg hp]
    exact h'

/-- To look at a token is to take it and see whether to hand it back. -/
theorem look {f : Token → ParseM α} {g : Token → LookM α} (h : ∀ t ∈ S.tokens, S.Holding t (f t) (g t) took) :
    S.Simulates (ParseM.next >>= f) (LookM.ahead 0 >>= g) took := by
  intro l ts hal
  refine Agree.look hal ?_
  rintro t us l' rfl hal'
  exact h t hal.mem l' us hal'

end Simulates

namespace Holding

variable {x : ParseM α} {y : LookM α} {took : α → Nat}

/-- The token is taken. -/
theorem take (ht : t.kind ≠ .eof) (h : S.Simulates x y fun a => took a - 1) :
    S.Holding t x (LookM.skip 1 >>= fun _ => y) took := by
  intro l ts hal
  refine (h l ts (hal.tail ht)).imp fun a l' ts' hq => ⟨hq.1, ?_⟩
  have hle : Token.pending ts' + (took a - 1) ≤ Token.pending ts := hq.2
  rw [Token.pending_cons ht]
  omega

/-- The token is handed back. -/
theorem giveBack (h : S.Simulates x y took) : S.Holding t (ParseM.revert t >>= fun _ => x) y took :=
  fun l ts hal => h (l.revert t) (t :: ts) hal

theorem fail {cause : ParseError.Cause} (hc : ∀ c, cause ≠ .lexical c) :
    S.Holding t (ParseM.fail cause t.loc) (LookM.fail cause t.loc) took := by
  intro l ts hal
  exact .failed ⟨hc, t, hal.mem, rfl⟩

end Holding

namespace Simulates

/-! ## Tokens -/

variable {kind : Token.Kind} {place : ParseError.Place} {took : β → Nat}

theorem peek_bind {f : Token → ParseM β} {g : Token → LookM β}
    (h : ∀ t ∈ S.tokens, S.Simulates (f t) (g t) took) :
    S.Simulates (ParseM.peek >>= f) (LookM.ahead 0 >>= g) took := by
  unfold ParseM.peek
  rw [bind_assoc]
  refine look fun t ht => ?_
  rw [bind_assoc, pure_bind]
  exact Holding.giveBack (h t ht)

theorem accept_ite {x x' : ParseM β} {y y' : LookM β} (hk : kind ≠ .eof)
    (h : S.Simulates x y fun b => took b - 1) (h' : S.Simulates x' y' took) :
    S.Simulates (ParseM.accept kind >>= fun b => if b = true then x else x')
      (LookM.accept kind >>= fun b => if b = true then y else y') took := by
  unfold ParseM.accept LookM.accept
  rw [bind_assoc, bind_assoc]
  refine look fun t _ => ?_
  by_cases ht : t.kind = kind
  · rw [if_pos ht, if_pos ht, pure_bind, bind_assoc]
    simp only [pure_bind, if_true]
    exact Holding.take (ht ▸ hk) h
  · rw [if_neg ht, if_neg ht, bind_assoc, pure_bind]
    exact Holding.giveBack h'

theorem expect_bind {f : Token → ParseM β} {g : Token → LookM β} (hk : kind ≠ .eof)
    (h : ∀ t ∈ S.tokens, S.Simulates (f t) (g t) took) :
    S.Simulates (ParseM.expect kind place >>= f) (LookM.expect kind place >>= g) took := by
  unfold ParseM.expect LookM.expect
  rw [bind_assoc, bind_assoc]
  refine look fun t ht => ?_
  by_cases hkind : t.kind = kind
  · rw [if_pos hkind, if_pos hkind, pure_bind, bind_assoc]
    simp only [pure_bind]
    exact Holding.take (hkind ▸ hk) ((h t ht).weaken fun b => Nat.sub_le _ _)
  · rw [if_neg hkind, if_neg hkind]
    exact Holding.fail nofun

theorem identifier (place : ParseError.Place) :
    S.Simulates (ParseM.identifier place) (LookM.identifier place) fun _ => 0 := by
  refine look fun t _ => ?_
  cases hk : t.kind with
  | ident name => exact Holding.take (by simp [hk]) (pure rfl)
  | _ => exact Holding.fail nofun

theorem required {item : ParseM (Option α)} {item' : LookM (Option α)} (h : S.Simulates item item' ParseM.found) :
    S.Simulates (ParseM.required place item) (LookM.required place item') fun _ => 0 := by
  refine h.bind fun o => ?_
  cases o with
  | some a => exact pure rfl
  | none => exact peek_bind fun t ht => fail nofun ht rfl

theorem enter_bind {γ δ : Type} {R : γ → δ → Prop} {inner : Option γ} {inner' : Option δ} {f : γ → ParseM β}
    {g : δ → LookM β} (hrel : Option.Rel R inner inner') (ht : t ∈ S.tokens)
    (h : ∀ c d, R c d → S.Simulates (f c) (g d) took) :
    S.Simulates (ParseM.enter inner t.loc >>= f) (LookM.enter inner' t.loc >>= g) took := by
  cases hrel with
  | some hcd => exact h _ _ hcd
  | none => exact fun l ts _ => .failed ⟨nofun, t, ht, rfl⟩

/-! ## Repetition -/

theorem upTo {step : α → ParseM (Option α)} {step' : α → LookM (Option α)}
    (h : ∀ a, S.Simulates (step a) (step' a) ParseM.found) :
    ∀ (n : Nat) (a : α), S.Simulates (ParseM.upTo step n a) (LookM.upTo step' n a) fun _ => 0 := by
  intro n
  induction n with
  | zero => exact fun a => pure rfl
  | succ n ih =>
    intro a
    refine (h a).bind fun o => ?_
    cases o with
    | none => exact pure rfl
    | some b => exact ih b

/-- The bounds on the number of rounds differ, but neither is reached: each round takes a token. -/
theorem upTo_enough {step : α → ParseM (Option α)} {step' : α → LookM (Option α)}
    (h : ∀ a, S.Simulates (step a) (step' a) ParseM.found) :
    ∀ (n m : Nat) (a : α) (l : Lexer) (ts : List Token), S.Aligned l ts → Token.pending ts < n →
      Token.pending ts < m → S.Agree (fun _ l' ts' => S.Aligned l' ts' ∧ Token.pending ts' ≤ Token.pending ts)
        (ParseM.upTo step n a l) (LookM.upTo step' m a ts) := by
  intro n
  induction n with
  | zero => exact fun m a l ts _ hn => absurd hn (Nat.not_lt_zero _)
  | succ n ih =>
    intro m a l ts hal hn hm
    cases m with
    | zero => exact absurd hm (Nat.not_lt_zero _)
    | succ m =>
      refine (h a l ts hal).bind fun o l' ts' hq => ?_
      cases o with
      | none => exact .ok ⟨hq.1, hq.2⟩
      | some b =>
        have hlt : Token.pending ts' + 1 ≤ Token.pending ts := hq.2
        refine (ih m b l' ts' hq.1 (by omega) (by omega)).imp fun c l'' ts'' hr => ⟨hr.1, ?_⟩
        have := hr.2
        omega

theorem many {item : ParseM (Option α)} {item' : LookM (Option α)} (h : S.Simulates item item' ParseM.found) :
    S.Simulates (ParseM.many item) (LookM.many item') fun _ => 0 := by
  have hstep : ∀ items : List α, S.Simulates (do return (← item).map (· :: items))
      (do return (← item').map (· :: items)) ParseM.found := by
    intro items
    refine h.bind fun o => ?_
    cases o with
    | none => exact pure rfl
    | some a => exact pure rfl
  intro l ts hal
  have hsize := hal.pending_le_size
  have hlength : Token.pending ts ≤ ts.length := List.countP_le_length
  have hloop := upTo_enough hstep (l.size + 1) (ts.length + 1) [] l ts hal (by omega) (by omega)
  refine hloop.bind (f := fun items => Pure.pure items.reverse) (g := fun items => Pure.pure items.reverse) ?_
  exact fun items l' ts' hq => .ok ⟨hq.1, hq.2⟩

theorem afterComma {item : ParseM α} {item' : LookM α} (h : S.Simulates item item' fun _ => 0) :
    S.Simulates (ParseM.afterComma item) (LookM.afterComma item') ParseM.found :=
  accept_ite nofun (map some h) (pure rfl)

/-! ## Expressions -/

theorem binary {operand : ParseM (Option Measured)} {operand' : LookM (Option Measured)}
    (h : S.Simulates operand operand' ParseM.found) (level : Nat) :
    S.Simulates (ParseM.binary operand level) (LookM.binary operand' level) ParseM.found := by
  have hclimb : ∀ left,
      S.Simulates (ParseM.climb operand level left) (LookM.climb operand' level left) ParseM.found := by
    intro left
    refine look fun t ht => ?_
    cases hop : t.kind.binaryOp? with
    | none => exact Holding.giveBack (pure rfl)
    | some op =>
      have hlt := op.precedence_lt
      by_cases hle : level ≤ op.precedence
      · simp only [if_pos hle]
        refine Holding.take (by intro hk; rw [hk] at hop; cases hop) ?_
        refine (required (binary h (op.precedence + 1))).bind fun right => ?_
        exact ite (fail nofun ht rfl) (pure rfl)
      · simp only [if_neg hle]
        exact Holding.giveBack (pure rfl)
  rw [ParseM.binary_eq, LookM.binary_eq]
  refine h.bind fun o => ?_
  cases o with
  | none => exact pure rfl
  | some e => exact map some (upTo hclimb _ e)
termination_by 5 - level

theorem arguments (callee : String) {argument : ParseM (Option Measured)} {argument' : LookM (Option Measured)}
    (h : S.Simulates argument argument' ParseM.found) :
    S.Simulates (ParseM.arguments callee argument) (LookM.arguments callee argument') fun _ => 0 := by
  rw [ParseM.arguments_eq]
  refine accept_ite nofun (pure rfl) ?_
  refine (required h).bind fun first => ?_
  refine (many (afterComma (required h))).bind fun more => ?_
  exact expect_bind nofun fun _ _ => pure rfl

theorem signed (op : UnaryOp) {operand : ParseM (Option Measured)} {operand' : LookM (Option Measured)}
    (h : S.Simulates operand operand' ParseM.found) :
    S.Simulates (ParseM.signed op operand) (LookM.signed op operand') fun _ => 0 := map _ (required h)

theorem atomWith {inner : Option (ParseM (Option Measured))} {inner' : Option (LookM (Option Measured))}
    (h : Option.Rel (fun x y => S.Simulates x y ParseM.found) inner inner') :
    S.Simulates (ParseM.atomWith inner) (LookM.atomWith inner') ParseM.found := by
  refine look fun t ht => ?_
  cases hk : t.kind with
  | number value => exact Holding.take (by simp [hk]) (pure rfl)
  | ident name =>
    refine Holding.take (by simp [hk]) (accept_ite nofun ?_ (pure rfl))
    refine enter_bind h ht fun x y hxy => ?_
    exact (arguments name (binary hxy 0)).bind fun args => pure rfl
  | lparen =>
    refine Holding.take (by simp [hk]) (enter_bind h ht fun x y hxy => ?_)
    refine (required (binary hxy 0)).bind fun e => ?_
    exact expect_bind nofun fun _ _ => pure rfl
  | plus => exact Holding.take (by simp [hk]) (enter_bind h ht fun x y hxy => map some (signed .identity hxy))
  | minus => exact Holding.take (by simp [hk]) (enter_bind h ht fun x y hxy => map some (signed .negate hxy))
  | _ => exact Holding.giveBack (pure rfl)

theorem atom (room : Nat) : S.Simulates (ParseM.atom room) (LookM.atom room) ParseM.found := by
  induction room with
  | zero => exact atomWith .none
  | succ room ih => exact atomWith (.some ih)

theorem expression (room : Nat) : S.Simulates (ParseM.expression room) (LookM.expression room) ParseM.found := by
  refine peek_bind fun start hstart => ?_
  refine (binary (atom room) 0).bind fun o => ?_
  cases o with
  | none => exact pure rfl
  | some e => exact ite (fail nofun hstart rfl) (pure rfl)

/-! ## Statements -/

/-- The one place where two tokens are taken before it is clear whether they are to be handed back. -/
theorem assignee : S.Simulates ParseM.assignee LookM.assignee ParseM.found := by
  refine look fun t _ => ?_
  cases hk : t.kind with
  | ident name =>
    intro l ts hal
    have ht : t.kind ≠ .eof := by simp [hk]
    have hl := hal.tail ht
    cases ts with
    | nil =>
      obtain ⟨e, he, hn⟩ := hl.next_nil
      dsimp only
      rw [ParseM.bind_error hn]
      exact .ranOut he
    | cons u us =>
      obtain ⟨l', hn, hu⟩ := hl.next
      have hrun : ParseM.next l = .ok (u, l') := by rw [ParseM.next, hn]
      dsimp only
      rw [ParseM.bind_run hrun]
      have hahead : LookM.ahead 1 (t :: u :: us) = .ok (u, t :: u :: us) := rfl
      simp only [Bind.bind, StateT.bind, hahead, Except.bind]
      by_cases hassign : u.kind = .assign
      · have hne : u.kind ≠ .eof := by simp [hassign]
        simp only [if_pos hassign]
        refine .ok ⟨hu.tail hne, ?_⟩
        rw [Token.pending_cons ht, Token.pending_cons hne]
        exact Nat.le_succ _
      · simp only [if_neg hassign]
        refine .ok ⟨hal.congr ?_, Nat.le_refl _⟩
        rw [Lexer.delivers_revert, (Lexer.delivers_of_next hn).stream_revert, Lexer.delivers_revert]
  | _ => exact Holding.giveBack (pure rfl)

theorem block (place : ParseError.Place) {inner : Option (ParseM (Option Stmt))}
    {inner' : Option (LookM (Option Stmt))} (h : Option.Rel (fun x y => S.Simulates x y ParseM.found) inner inner') :
    S.Simulates (ParseM.block place inner) (LookM.block place inner') fun _ => 0 := by
  refine expect_bind nofun fun brace hbrace => enter_bind h hbrace fun x y hxy => ?_
  refine (many hxy).bind fun body => ?_
  exact expect_bind nofun fun _ _ => pure rfl

theorem conditional (room : Nat) {inner : Option (ParseM (Option Stmt))} {inner' : Option (LookM (Option Stmt))}
    (h : Option.Rel (fun x y => S.Simulates x y ParseM.found) inner inner') :
    S.Simulates (ParseM.conditional room inner) (LookM.conditional room inner') fun _ => 0 := by
  refine expect_bind nofun fun _ _ => ?_
  refine (required (expression room)).bind fun test => ?_
  refine expect_bind nofun fun _ _ => ?_
  refine (block .afterCondition h).bind fun yes => ?_
  refine accept_ite nofun ?_ (pure rfl)
  exact (block .afterElse h).bind fun no => pure rfl

theorem statementWith (room : Nat) {inner : Option (ParseM (Option Stmt))} {inner' : Option (LookM (Option Stmt))}
    (h : Option.Rel (fun x y => S.Simulates x y ParseM.found) inner inner') :
    S.Simulates (ParseM.statementWith room inner) (LookM.statementWith room inner') ParseM.found := by
  refine accept_ite nofun ?_ (assignee.bind fun target => ?_)
  · refine ((expression room).weaken fun _ => Nat.zero_le _).bind fun value => ?_
    exact expect_bind nofun fun _ _ => pure rfl
  · cases target with
    | some target =>
      refine (required (expression room)).bind fun value => ?_
      exact expect_bind nofun fun _ _ => pure rfl
    | none =>
      refine accept_ite nofun (map some (conditional room h)) (peek_bind fun t ht => ?_)
      refine ite (fail nofun ht rfl) ((expression room).bind fun o => ?_)
      cases o with
      | none => exact pure rfl
      | some e => exact expect_bind nofun fun _ _ => pure rfl

theorem statement (room : Nat) : S.Simulates (ParseM.statement room) (LookM.statement room) ParseM.found := by
  induction room with
  | zero => exact statementWith 0 .none
  | succ room ih => exact statementWith (room + 1) (.some ih)

/-! ## Programs -/

theorem names (list : ParseError.NameList) : S.Simulates (ParseM.names list) (LookM.names list) fun _ => 0 := by
  rw [ParseM.names_eq]
  refine look fun t _ => ?_
  cases hk : t.kind with
  | ident first =>
    refine Holding.take (by simp [hk]) ?_
    exact (many (afterComma (identifier _))).bind fun more => pure rfl
  | _ => exact Holding.giveBack (pure rfl)

theorem localNames : S.Simulates ParseM.localNames LookM.localNames fun _ => 0 := by
  refine accept_ite nofun ?_ (pure rfl)
  refine (names .locals).bind fun locals => ?_
  exact expect_bind nofun fun _ _ => pure rfl

theorem declaration (kind : FunctionKind) :
    S.Simulates (ParseM.declaration kind) (LookM.declaration kind) fun _ => 0 := by
  refine (identifier _).bind fun name => ?_
  refine expect_bind nofun fun _ _ => ?_
  refine (names .params).bind fun params => ?_
  refine expect_bind nofun fun _ _ => expect_bind nofun fun _ _ => ?_
  refine localNames.bind fun locals => ?_
  refine (many (statement maxNesting)).bind fun body => ?_
  exact expect_bind nofun fun _ _ => pure rfl

theorem function : S.Simulates ParseM.function LookM.function ParseM.found := by
  refine look fun t _ => ?_
  cases hk : t.kind with
  | kwFunc => exact Holding.take (by simp [hk]) (map some (declaration .func))
  | kwProc => exact Holding.take (by simp [hk]) (map some (declaration .proc))
  | _ => exact Holding.giveBack (pure rfl)

end Simulates

/-- A program ends with the text, so there is none where the tokens do not reach its end. -/
theorem Aligned.program (h : S.Aligned l ts) :
    S.Agree (fun _ _ _ => S.fault? = none) (ParseM.program l) (LookM.program ts) := by
  refine (Simulates.many Simulates.function l ts h).bind fun functions l' ts' hq => ?_
  refine Agree.look hq.1 ?_
  rintro t us l'' rfl hal
  by_cases hk : t.kind = .eof
  · rw [if_pos hk, if_pos hk]
    obtain ⟨s, -, ⟨hne, -⟩ | ⟨-, hnone, -⟩⟩ := hal.ahead.cons_cases
    · exact absurd hk hne
    · exact .ok hnone
  · rw [if_neg hk, if_neg hk]
    exact .failed ⟨nofun, t, hal.mem, rfl⟩

/-- The same of what the parsers give. -/
theorem Agree.results {Q : α → Lexer → List Token → Prop} {x : ParseM α} {y : LookM α} (h : S.Agree Q (x l) (y ts)) :
    (∃ a l' ts', Q a l' ts' ∧ x.run' l = .ok a ∧ y.run' ts = .ok a) ∨
    (∃ e, S.fault? = some e ∧ x.run' l = .error (.ofLexError e) ∧ y.run' ts = .error .ranOut) ∨
    ∃ e, e.Blames S.tokens ∧ x.run' l = .error e ∧ y.run' ts = .error (.failed e) := by
  unfold StateT.run'
  generalize x l = rx at h
  generalize y ts = ry at h
  cases h with
  | ok hq => exact .inl ⟨_, _, _, hq, rfl, rfl⟩
  | ranOut he => exact .inr (.inl ⟨_, he, rfl, rfl⟩)
  | failed hb => exact .inr (.inr ⟨_, hb, rfl, rfl⟩)

end Scan

namespace Lexer

variable {l l' : Lexer} {ts : List Token} {e : LexError}

theorem aligned_of_tokenize (h : l.tokenize = (.ok ts, l')) : Scan.Aligned ⟨ts, none⟩ l ts := by
  obtain ⟨before, last, hts, hlast, hbefore, hs⟩ := tokenize_go_ok h
  rw [List.reverse_nil, List.nil_append] at hts
  refine ⟨?_, fun t ht => ht⟩
  rw [hs, hts, List.map_append, Stream'.append_append_stream]
  exact Scan.Ahead.append (.last l'.stream rfl hlast) hbefore

/-- Before the error that ends it, tokenizing delivers tokens none of which ends the text. -/
theorem tokenize_go_error {delivered : List Token} (h : tokenize.go delivered l = (.error e, l')) :
    ∃ before : List Token, (∀ t ∈ before, t.kind ≠ .eof) ∧
      l.stream = before.map .ok ++ₛ Stream'.cons (.error e) l'.stream := by
  fun_induction tokenize.go delivered l with
  | case1 delivered l e' l₁ hnext =>
    cases h
    refine ⟨[], by simp, ?_⟩
    rw [stream_eq, hnext]
    rfl
  | case2 => cases h
  | case3 delivered l t l₁ hnext ht _ ih =>
    obtain ⟨before, hbefore, hs⟩ := ih h
    refine ⟨t :: before, List.forall_mem_cons.2 ⟨ht, hbefore⟩, ?_⟩
    rw [delivers_of_next hnext, hs]
    rfl

theorem aligned_of_fault {before : List Token} (hbefore : ∀ t ∈ before, t.kind ≠ .eof)
    (hs : l.stream = before.map .ok ++ₛ Stream'.cons (.error e) l'.stream) :
    Scan.Aligned ⟨before, some e⟩ l before := by
  refine ⟨?_, fun t ht => ht⟩
  have ha := Scan.Ahead.append (S := ⟨before, some e⟩) (.fault l'.stream rfl) hbefore
  rwa [List.append_nil, ← hs] at ha

end Lexer

/-- If all of a text is tokens, parsing it gives what the list of its tokens gives, and no lexical error. If an
error comes behind the tokens `before`, parsing fails: with that error if the list runs out of tokens, and else
with the error that the list gives, which is not lexical and is located at one of them. -/
theorem Program.parse_eq_ofTokens (source : String) :
    (∀ ts l, (Lexer.ofString source).tokenize = (.ok ts, l) →
      Program.ofTokens ts = (Program.parse source).mapError .failed ∧
        ∀ e, Program.parse source = .error e → ∀ cause, e.cause ≠ .lexical cause) ∧
    ∀ e l, (Lexer.ofString source).tokenize = (.error e, l) →
      ∃ before : List Token, (∀ t ∈ before, t.kind ≠ .eof) ∧
        (Lexer.ofString source).stream = before.map .ok ++ₛ Stream'.cons (.error e) l.stream ∧
        (Program.ofTokens before = .error .ranOut ∧ Program.parse source = .error (.ofLexError e) ∨
          ∃ e', Program.ofTokens before = .error (.failed e') ∧ Program.parse source = .error e' ∧
            (∀ cause, e'.cause ≠ .lexical cause) ∧ ∃ t ∈ before, e'.loc = t.loc) := by
  unfold Program.parse Program.ofLexer Program.ofTokens
  constructor
  · intro ts l h
    rcases (Lexer.aligned_of_tokenize h).program.results with ⟨p, -, -, -, hx, hy⟩ | ⟨e, he, -⟩ | ⟨e, hb, hx, hy⟩
    · rw [hx, hy]
      refine ⟨rfl, fun e he => ?_⟩
      cases he
    · cases he
    · rw [hx, hy]
      refine ⟨rfl, fun e' he => ?_⟩
      cases he
      exact hb.1
  · intro e l h
    obtain ⟨before, hbefore, hs⟩ := Lexer.tokenize_go_error h
    refine ⟨before, hbefore, hs, ?_⟩
    rcases (Lexer.aligned_of_fault hbefore hs).program.results with
      ⟨p, -, -, hnone, -⟩ | ⟨e', he, hx, hy⟩ | ⟨e', hb, hx, hy⟩
    · cases hnone
    · cases he
      exact .inl ⟨hy, hx⟩
    · exact .inr ⟨e', hy, hx, hb⟩

/-- The tokens of `proc P() \x7b a + 1; \x7d`. The parser takes `a` and `+` before it knows that this is no
assignment. -/
def sumTokens : List Token :=
  [⟨.kwProc, ⟨1, 1⟩⟩, ⟨.ident "P", ⟨1, 6⟩⟩, ⟨.lparen, ⟨1, 7⟩⟩, ⟨.rparen, ⟨1, 8⟩⟩, ⟨.lbrace, ⟨1, 10⟩⟩,
    ⟨.ident "a", ⟨1, 12⟩⟩, ⟨.plus, ⟨1, 14⟩⟩, ⟨.number 1, ⟨1, 16⟩⟩, ⟨.semicolon, ⟨1, 17⟩⟩, ⟨.rbrace, ⟨1, 19⟩⟩,
    ⟨.eof, ⟨1, 20⟩⟩]

/-- A name with `+` behind it, and one with an error behind it. -/
theorem parse_sum_eq_ofTokens :
    ((Lexer.ofString "proc P() \x7b a + 1; \x7d").tokenize = (.ok sumTokens, ⟨[], ⟨1, 20⟩, []⟩) ∧
      Program.ofTokens sumTokens = (Program.parse "proc P() \x7b a + 1; \x7d").mapError .failed) ∧
    (Lexer.ofString "proc P() \x7b a $").tokenize = (.error ⟨.unexpectedCharacter '$', ⟨1, 14⟩⟩, ⟨[], ⟨1, 15⟩, []⟩) ∧
      ∃ before : List Token, (∀ t ∈ before, t.kind ≠ .eof) ∧
        (Lexer.ofString "proc P() \x7b a $").stream = before.map .ok ++ₛ
          Stream'.cons (.error ⟨.unexpectedCharacter '$', ⟨1, 14⟩⟩) (Lexer.mk [] ⟨1, 15⟩ []).stream ∧
        (Program.ofTokens before = .error .ranOut ∧
            Program.parse "proc P() \x7b a $" = .error (.ofLexError ⟨.unexpectedCharacter '$', ⟨1, 14⟩⟩) ∨
          ∃ e', Program.ofTokens before = .error (.failed e') ∧ Program.parse "proc P() \x7b a $" = .error e' ∧
            (∀ cause, e'.cause ≠ .lexical cause) ∧ ∃ t ∈ before, e'.loc = t.loc) := by
  have hsum : (Lexer.ofString "proc P() \x7b a + 1; \x7d").tokenize = (.ok sumTokens, ⟨[], ⟨1, 20⟩, []⟩) := by
    decide +kernel
  have hfault : (Lexer.ofString "proc P() \x7b a $").tokenize =
      (.error ⟨.unexpectedCharacter '$', ⟨1, 14⟩⟩, ⟨[], ⟨1, 15⟩, []⟩) := by decide +kernel
  exact ⟨⟨hsum, ((Program.parse_eq_ofTokens _).1 _ _ hsum).1⟩, hfault, (Program.parse_eq_ofTokens _).2 _ _ hfault⟩

end Wordlang
