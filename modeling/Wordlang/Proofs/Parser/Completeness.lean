import Wordlang.Proofs.Parser.Soundness

/-!
# The parser accepts all that the grammar derives

On tokens of which the grammar derives a tree, within the limits, each parser succeeds with that tree and
stops behind those tokens, if what comes next cannot belong to them.
-/

namespace Wordlang

open Grammar Lexer

/-! ## Tokens of expressions -/

namespace Token.Kind

/-- Kinds with which an expression can start. -/
def opensExpression : Kind → Bool
  | number _ | ident _ | lparen | plus | minus => true
  | _ => false

/-- Kinds that can stand in an expression. -/
def inExpression : Kind → Bool
  | rparen | comma => true
  | kind => kind.opensExpression || kind.binaryOp?.isSome

end Token.Kind

namespace Grammar

theorem mem_separated_of_mem {depth : Nat} {parts : List (List Placed)} {us : List Placed} {u : Placed}
    (hus : us ∈ parts) (hu : u ∈ us) : u ∈ separated depth parts := by
  cases parts with
  | nil => cases hus
  | cons vs parts =>
    rw [separated_cons]
    rcases List.mem_cons.1 hus with rfl | hus
    · exact List.mem_append_left _ hu
    · exact List.mem_append_right _ (List.mem_flatten.2 ⟨_, List.mem_map_of_mem hus, List.mem_cons_of_mem _ hu⟩)

theorem mem_separated {depth : Nat} {parts : List (List Placed)} {u : Placed} (h : u ∈ separated depth parts) :
    u = (.comma, depth) ∨ ∃ us ∈ parts, u ∈ us := by
  cases parts with
  | nil => simp [separated, List.intercalate] at h
  | cons us parts =>
    rw [separated_cons] at h
    rcases List.mem_append.1 h with h | h
    · exact .inr ⟨us, List.mem_cons_self, h⟩
    · obtain ⟨vs, hvs, hu⟩ := List.mem_flatten.1 h
      obtain ⟨ws, hws, rfl⟩ := List.mem_map.1 hvs
      rcases List.mem_cons.1 hu with rfl | hu
      · exact .inl rfl
      · exact .inr ⟨ws, List.mem_cons_of_mem us hws, hu⟩

namespace Expression

variable {level depth : Nat} {us : List Placed} {e : Expr}

theorem opens (h : Expression level depth us e) : ∃ u vs, us = u :: vs ∧ u.1.opensExpression = true := by
  induction h with
  | number => exact ⟨_, _, rfl, rfl⟩
  | name => exact ⟨_, _, rfl, rfl⟩
  | call => exact ⟨_, _, rfl, rfl⟩
  | group => exact ⟨_, _, rfl, rfl⟩
  | sign op => exact ⟨_, _, rfl, by cases op <;> rfl⟩
  | tighter _ _ ih => exact ih
  | operation op _ _ _ ih =>
    obtain ⟨u, vs, rfl, hu⟩ := ih
    exact ⟨u, _, rfl, hu⟩

/-- Tokens of an expression are of certain kinds only, and lie no less deep than the expression. -/
theorem tokens (h : Expression level depth us e) : ∀ u ∈ us, u.1.inExpression = true ∧ depth ≤ u.2 := by
  induction h with
  | number => exact List.forall_mem_singleton.2 ⟨rfl, Nat.le_refl _⟩
  | name => exact List.forall_mem_singleton.2 ⟨rfl, Nat.le_refl _⟩
  | call callee args _ ih =>
    intro u hu
    rcases List.mem_cons.1 hu with rfl | hu
    · exact ⟨rfl, Nat.le_refl _⟩
    rcases List.mem_cons.1 hu with rfl | hu
    · exact ⟨rfl, Nat.le_succ _⟩
    rcases List.mem_append.1 hu with hu | hu
    · rcases mem_separated hu with rfl | ⟨us, hus, hu⟩
      · exact ⟨rfl, Nat.le_succ _⟩
      · obtain ⟨arg, harg, rfl⟩ := List.mem_map.1 hus
        obtain ⟨hk, hd⟩ := ih arg harg u hu
        exact ⟨hk, Nat.le_of_succ_le hd⟩
    · cases List.mem_singleton.1 hu
      exact ⟨rfl, Nat.le_succ _⟩
  | group _ ih =>
    intro u hu
    rcases List.mem_cons.1 hu with rfl | hu
    · exact ⟨rfl, Nat.le_succ _⟩
    rcases List.mem_append.1 hu with hu | hu
    · obtain ⟨hk, hd⟩ := ih u hu
      exact ⟨hk, Nat.le_of_succ_le hd⟩
    · cases List.mem_singleton.1 hu
      exact ⟨rfl, Nat.le_succ _⟩
  | sign op _ ih =>
    intro u hu
    rcases List.mem_cons.1 hu with rfl | hu
    · exact ⟨by cases op <;> rfl, Nat.le_refl _⟩
    · obtain ⟨hk, hd⟩ := ih u hu
      exact ⟨hk, Nat.le_of_succ_le hd⟩
  | tighter _ _ ih => exact ih
  | operation op _ _ _ ih ih' =>
    intro u hu
    rcases List.mem_append.1 hu with hu | hu
    · exact ih u hu
    rcases List.mem_cons.1 hu with rfl | hu
    · exact ⟨by cases op <;> rfl, Nat.le_refl _⟩
    · exact ih' u hu

theorem ne_eof (h : Expression level depth us e) : ∀ u ∈ us, u.1 ≠ .eof := by
  intro u hu hk
  have hin := (h.tokens u hu).1
  rw [hk] at hin
  cases hin

theorem depth_le (h : Expression level depth us e) (hs : Shallow us) : depth ≤ maxNesting := by
  obtain ⟨u, vs, rfl, -⟩ := h.opens
  exact Nat.le_trans (h.tokens u List.mem_cons_self).2 (hs u List.mem_cons_self)

end Expression

/-- A statement starts neither with `else` nor with `var`, and has no end of the text in it. -/
theorem Statement.tokens {depth : Nat} {us : List Placed} {s : Stmt} (h : Statement depth us s) :
    (∃ u vs, us = u :: vs ∧ u.1 ≠ .kwElse ∧ u.1 ≠ .kwVar) ∧ ∀ u ∈ us, u.1 ≠ .eof := by
  have hcond : ∀ {depth us e}, Expression 0 depth us e → ∀ u ∈ condition depth us, u.1 ≠ .eof := by
    intro depth us e h u hu
    simp only [condition, List.mem_cons, List.mem_append, List.not_mem_nil, or_false] at hu
    rcases hu with rfl | rfl | hu | rfl
    · simp
    · simp
    · exact h.ne_eof u hu
    · simp
  have hbraced : ∀ {depth : Nat} {body : List (List Placed × Stmt)}, (∀ s ∈ body, ∀ u ∈ s.1, u.1 ≠ .eof) →
      ∀ u ∈ braced depth (body.map (·.1)), u.1 ≠ .eof := by
    intro depth body h u hu
    simp only [braced, List.mem_cons, List.mem_append, List.not_mem_nil, or_false] at hu
    rcases hu with rfl | hu | rfl
    · simp
    · obtain ⟨us, hus, hu⟩ := List.mem_flatten.1 hu
      obtain ⟨s, hs, rfl⟩ := List.mem_map.1 hus
      exact h s hs u hu
    · simp
  induction h with
  | expr h =>
    obtain ⟨u, vs, rfl, hu⟩ := h.opens
    refine ⟨⟨u, _, rfl, ?_, ?_⟩, List.forall_mem_append.2 ⟨h.ne_eof, by simp⟩⟩
    · intro hk
      rw [hk] at hu
      cases hu
    · intro hk
      rw [hk] at hu
      cases hu
  | set target h =>
    refine ⟨⟨_, _, rfl, by simp⟩, ?_⟩
    simp only [List.forall_mem_cons, List.forall_mem_append]
    exact ⟨by simp, by simp, h.ne_eof, by simp⟩
  | leave => exact ⟨⟨_, _, rfl, by simp⟩, by simp⟩
  | leaveWith h =>
    refine ⟨⟨_, _, rfl, by simp⟩, ?_⟩
    simp only [List.forall_mem_cons, List.forall_mem_append]
    exact ⟨by simp, h.ne_eof, by simp⟩
  | ifThen body h _ ih =>
    refine ⟨⟨_, _, rfl, by simp⟩, List.forall_mem_append.2 ⟨hcond h, hbraced fun s hs => (ih s hs).2⟩⟩
  | ifElse yes no h _ _ ihy ihn =>
    refine ⟨⟨_, _, rfl, by simp⟩, ?_⟩
    simp only [List.forall_mem_cons, List.forall_mem_append]
    exact ⟨⟨hcond h, hbraced fun s hs => (ihy s hs).2⟩, by simp, hbraced fun s hs => (ihn s hs).2⟩

theorem names_ne_eof (xs : List String) : ∀ u ∈ names xs, u.1 ≠ .eof := by
  intro u hu
  rcases mem_separated hu with rfl | ⟨us, hus, hu⟩
  · simp
  · obtain ⟨x, -, rfl⟩ := List.mem_map.1 hus
    cases List.mem_singleton.1 hu
    simp

theorem Locals.ne_eof {ls : List Placed} {xs : List String} (h : Locals ls xs) : ∀ u ∈ ls, u.1 ≠ .eof := by
  cases h with
  | missing => simp
  | declared =>
    simp only [List.forall_mem_cons, List.forall_mem_append]
    exact ⟨by simp, names_ne_eof xs, by simp⟩

theorem Declaration.tokens {us : List Placed} {f : Function} (h : Declaration us f) :
    us ≠ [] ∧ ∀ u ∈ us, u.1 ≠ .eof := by
  cases h with
  | intro name params locals body kind hls hbody =>
    refine ⟨by simp, ?_⟩
    have hstmts : ∀ u ∈ (body.map (·.1)).flatten, u.1 ≠ .eof := by
      intro u hu
      obtain ⟨vs, hvs, hu⟩ := List.mem_flatten.1 hu
      obtain ⟨s, hs, rfl⟩ := List.mem_map.1 hvs
      exact (hbody s hs).tokens.2 u hu
    simp only [List.forall_mem_cons, List.forall_mem_append]
    exact ⟨by cases kind <;> simp [FunctionKind.token], by simp, by simp, names_ne_eof params, by simp, by simp,
      hls.ne_eof, hstmts, by simp⟩

theorem Derives.ne_eof {us : List Placed} {p : Program} (h : Derives us p) : ∀ u ∈ us, u.1 ≠ .eof := by
  cases h with
  | intro parts hparts =>
    intro u hu
    obtain ⟨vs, hvs, hu⟩ := List.mem_flatten.1 hu
    obtain ⟨f, hf, rfl⟩ := List.mem_map.1 hvs
    exact (hparts f hf).tokens.2 u hu

end Grammar

namespace ParseM

variable {l l' l₁ : Lexer} {t : Token} {atom : ParseM (Option Measured)} {level depth : Nat}
  {us : List Placed} {e : Expr}

/-! ## Expressions -/

/-- What comes next cannot continue an expression of the level: no opening parenthesis, no tighter operator. -/
def Stops (level : Nat) (l : Lexer) : Prop :=
  ∃ t l', l.Delivers t l' ∧ t.kind ≠ .lparen ∧ ∀ op, t.kind.binaryOp? = some op → op.precedence ≤ level

theorem Stops.mono {level' : Nat} (h : Stops level l) (hle : level ≤ level') : Stops level' l := by
  obtain ⟨t, l₁, hd, ht, hop⟩ := h
  exact ⟨t, l₁, hd, ht, fun op h => Nat.le_trans (hop op h) hle⟩

/-- The loop over operators ends where no operator of its level comes next. -/
theorem climb_end (n : Nat) (e : Measured) (hd : l.Delivers t l')
    (hop : ∀ op, t.kind.binaryOp? = some op → op.precedence < level) :
    ∃ l₁, upTo (climb atom level) n e l = .ok (e, l₁) ∧ l₁.stream = l.stream := by
  cases n with
  | zero => exact ⟨l, rfl, rfl⟩
  | succ n =>
    obtain ⟨l₁, hn, -⟩ := next_run hd
    have hstep : climb atom level e l = .ok (none, l₁.revert t) := by
      unfold climb
      rw [bind_run hn]
      cases ho : t.kind.binaryOp? with
      | none => rfl
      | some op => simp only [if_neg (Nat.not_le_of_lt (hop op ho))]; rfl
    refine ⟨l₁.revert t, ?_, (next_ok hn).stream_revert⟩
    unfold upTo
    rw [bind_run hstep]
    rfl

/-- One more round of the loop. -/
theorem climb_step {n : Nat} {op : BinaryOp} {left right : Measured} {l₂ : Lexer} (hd : l.Delivers t l₁)
    (ht : t.kind = op.token) (hlevel : level ≤ op.precedence)
    (hheight : (left.binary op right).height ≤ maxNesting + 1)
    (hright : ∀ l, l.stream = l₁.stream →
      ∃ l', binary atom (op.precedence + 1) l = .ok (some right, l') ∧ l'.stream = l₂.stream) :
    ∃ l', upTo (climb atom level) (n + 1) left l = upTo (climb atom level) n (left.binary op right) l' ∧
      l'.stream = l₂.stream := by
  obtain ⟨l₃, hn, hs⟩ := next_run hd
  obtain ⟨l', hb, hs'⟩ := hright l₃ hs
  have hstep : climb atom level left l = .ok (some (left.binary op right), l') := by
    unfold climb
    rw [bind_run hn, ht, BinaryOp.binaryOp?_token]
    simp only [if_pos hlevel]
    rw [bind_run (required_run hb)]
    simp only [if_neg (Nat.not_lt_of_le hheight)]
    rfl
  refine ⟨l', ?_, hs'⟩
  conv => lhs; unfold upTo
  rw [bind_run hstep]

/-- On the tokens of an expression, the parser of its level or of a looser one comes to a point in its loop
at which it has read just that expression. Rounds enough are left for any tree that is not too high. -/
def Reaches (level depth : Nat) (us : List Placed) (e : Expr) : Prop :=
  ∀ room l l₁, room + depth = maxNesting → l.Reads us l₁ → Stops level l₁ → ∀ j ≤ level,
    ∃ n l', maxNesting + 2 ≤ n + e.height ∧ l'.stream = l₁.stream ∧
      binary (ParseM.atom room) j l = (some <$> upTo (climb (ParseM.atom room) j) n e.measured) l'

/-- An atom is read as a whole. -/
def IsAtom (depth : Nat) (us : List Placed) (e : Expr) : Prop :=
  ∀ room l l₁, room + depth = maxNesting → l.Reads us l₁ → Stops 5 l₁ →
    ∃ l', ParseM.atom room l = .ok (some e.measured, l') ∧ l'.stream = l₁.stream

theorem IsAtom.reaches (h : IsAtom depth us e) : Reaches 5 depth us e := by
  intro room l l₁ hroom hr hstop j _
  obtain ⟨l', ha, hs⟩ := h room l l₁ hroom hr hstop
  have := Expr.one_le_height e
  refine ⟨maxNesting + 1, l', by omega, hs, ?_⟩
  rw [binary_eq, bind_run ha]

/-- Where the next token stops the loop, the parser has read the expression. -/
theorem Reaches.run (h : Reaches level depth us e) {room j : Nat} (hroom : room + depth = maxNesting)
    (hr : l.Reads us l₁) (hstop : Stops level l₁) (hj : j ≤ level) (hd : l₁.Delivers t l')
    (hop : ∀ op, t.kind.binaryOp? = some op → op.precedence < j) :
    ∃ l₂, binary (ParseM.atom room) j l = .ok (some e.measured, l₂) ∧ l₂.stream = l₁.stream := by
  obtain ⟨n, l₂, -, hs, hb⟩ := h room l l₁ hroom hr hstop j hj
  obtain ⟨l₃, hloop, hs'⟩ := climb_end n e.measured (hd.congr_left hs) hop
  exact ⟨l₃, by rw [hb, map_run hloop], hs'.trans hs⟩

theorem Reaches.operation {op : BinaryOp} {left right : Expr} {vs : List Placed}
    (hl : Reaches op.precedence depth us left) (hr : Reaches (op.precedence + 1) depth vs right)
    (hheight : (Expr.binary op left right).height ≤ maxNesting + 1) :
    Reaches op.precedence depth (us ++ (op.token, depth) :: vs) (.binary op left right) := by
  intro room l l₁ hroom hreads hstop j hj
  obtain ⟨l₂, h₂, h⟩ := hreads.split
  obtain ⟨t, l₃, ht, hd, h₃⟩ := h.uncons
  have hstop₂ : Stops op.precedence l₂ := by
    refine ⟨t, l₃, hd, ?_, fun op' hop' => ?_⟩
    · rw [ht]
      cases op <;> simp [BinaryOp.token]
    · rw [ht, BinaryOp.binaryOp?_token] at hop'
      cases hop'
      exact Nat.le_refl _
  obtain ⟨n, l₄, hn, hs₄, hb⟩ := hl room l l₂ hroom h₂ hstop₂ j hj
  have hnode : left.measured.binary op right.measured = (Expr.binary op left right).measured := Measured.eq_measured _
  have hhigher := left.measured.height_lt_binary op right.measured
  simp only [hnode, Expr.height_measured] at hhigher
  obtain ⟨n, rfl⟩ : ∃ k, n = k + 1 := ⟨n - 1, by omega⟩
  obtain ⟨u, l₅, hu, hnl, hop⟩ := hstop
  have hright : ∀ l, l.stream = l₃.stream → ∃ l', binary (ParseM.atom room) (op.precedence + 1) l =
      .ok (some right.measured, l') ∧ l'.stream = l₁.stream := by
    intro l hs
    exact hr.run hroom (h₃.congr_left hs) ⟨u, l₅, hu, hnl, fun op' h => Nat.le_succ_of_le (hop op' h)⟩
      (Nat.le_refl _) hu fun op' h => Nat.lt_succ_of_le (hop op' h)
  obtain ⟨l', hloop, hs'⟩ := climb_step (n := n) (hd.congr_left hs₄) ht hj (by rwa [hnode]) hright
  rw [hnode] at hloop
  refine ⟨n, l', by omega, hs', ?_⟩
  rw [hb]
  exact map_congr some hloop

section

variable {α : Type} {item : ParseM α} {Q : Lexer → Prop} {parts : List (List Placed × α)}

/-- A list behind commas. `Q` tells what may follow an item. -/
theorem many_afterComma_items
    (hitem : ∀ part ∈ parts, ∀ l l₁, l.Reads part.1 l₁ → Q l₁ →
      ∃ l', item l = .ok (part.2, l') ∧ l'.stream = l₁.stream)
    (hcomma : ∀ l t l', l.Delivers t l' → t.kind = .comma → Q l)
    (hne : ∀ part ∈ parts, ∀ u ∈ part.1, u.1 ≠ .eof) (hend : ∀ l, l.stream = l₁.stream → Q l)
    (h : l.Reads ((parts.map (·.1)).map ((.comma, depth) :: ·)).flatten l₁) :
    ∃ l₂, l₂.stream = l₁.stream ∧
      (∀ l', afterComma item l₂ = .ok (none, l') → many (afterComma item) l = .ok (parts.map (·.2), l')) ∧
      ∀ e, afterComma item l₂ = .error e → many (afterComma item) l = .error e := by
  have hparts : parts.map (·.2) = (parts.map fun part => ((.comma, depth) :: part.1, part.2)).map (·.2) := by simp
  rw [hparts]
  refine many_items (Q := Q) ?_ ?_ ?_ hend (by simpa [Function.comp_def] using h)
  · intro part hpart l l₁ hr hQ
    obtain ⟨part', hmem, rfl⟩ := List.mem_map.1 hpart
    obtain ⟨t, l₂, ht, hd, hr⟩ := hr.uncons
    obtain ⟨l₃, ha, hs⟩ := accept_run hd ht
    obtain ⟨l', hi, hs'⟩ := hitem part' hmem l₃ l₁ (hr.congr_left hs) hQ
    refine ⟨l', ?_, hs'⟩
    unfold afterComma
    rw [bind_run ha]
    exact map_run hi
  · intro part hpart l l₁ hr
    obtain ⟨part', hmem, rfl⟩ := List.mem_map.1 hpart
    obtain ⟨t, l₂, ht, hd, -⟩ := hr.uncons
    exact hcomma l t l₂ hd ht
  · intro part hpart
    obtain ⟨part', hmem, rfl⟩ := List.mem_map.1 hpart
    refine ⟨by simp, fun u hu => ?_⟩
    rcases List.mem_cons.1 hu with rfl | hu
    · simp
    · exact hne part' hmem u hu

theorem many_afterComma_run
    (hitem : ∀ part ∈ parts, ∀ l l₁, l.Reads part.1 l₁ → Q l₁ →
      ∃ l', item l = .ok (part.2, l') ∧ l'.stream = l₁.stream)
    (hcomma : ∀ l t l', l.Delivers t l' → t.kind = .comma → Q l)
    (hne : ∀ part ∈ parts, ∀ u ∈ part.1, u.1 ≠ .eof)
    (hend : ∀ l, l.stream = l₁.stream → Q l ∧ ∃ t l', l.Delivers t l' ∧ t.kind ≠ .comma)
    (h : l.Reads ((parts.map (·.1)).map ((.comma, depth) :: ·)).flatten l₁) :
    ∃ l', many (afterComma item) l = .ok (parts.map (·.2), l') ∧ l'.stream = l₁.stream := by
  obtain ⟨l₂, hs, hnone, -⟩ := many_afterComma_items hitem hcomma hne (fun l hl => (hend l hl).1) h
  obtain ⟨-, t, l₃, hd, ht⟩ := hend l₂ hs
  obtain ⟨l', ha, hs'⟩ := accept_run_not hd ht
  refine ⟨l', hnone l' ?_, hs'.trans hs⟩
  unfold afterComma
  rw [bind_run ha]
  rfl

end

/-- A comma or a closing parenthesis comes next. -/
def Delimited (l : Lexer) : Prop := ∃ t l', l.Delivers t l' ∧ (t.kind = .comma ∨ t.kind = .rparen)

theorem Delimited.stops (h : Delimited l) (level : Nat) : Stops level l := by
  obtain ⟨t, l', hd, ht⟩ := h
  refine ⟨t, l', hd, ?_, fun op hop => ?_⟩
  · rcases ht with ht | ht <;> simp [ht]
  · rcases ht with ht | ht <;> rw [ht] at hop <;> cases hop

theorem Delimited.congr (h : Delimited l) (hs : l'.stream = l.stream) : Delimited l' := by
  obtain ⟨t, l₁, hd, ht⟩ := h
  exact ⟨t, l₁, hd.congr_left hs, ht⟩

theorem arguments_eq (callee : String) (argument : ParseM (Option Measured)) : arguments callee argument = (do
    if ← accept .rparen then
      return []
    else
      let first ← required (.inArgs callee) argument
      let more ← many (afterComma (required (.inArgs callee) argument))
      let _ ← expect .rparen (.afterArgs callee)
      return first :: more) := rfl

/-- The first argument is not missing where an expression starts, which is never a closing parenthesis. -/
theorem arguments_run_first (callee : String) (argument : ParseM (Option Measured))
    (h : Expression level depth us e) (hr : l.Reads us l₁) :
    ∃ l', l'.stream = l.stream ∧ arguments callee argument l = (do
      let first ← required (.inArgs callee) argument
      let more ← many (afterComma (required (.inArgs callee) argument))
      let _ ← expect .rparen (.afterArgs callee)
      return first :: more) l' := by
  obtain ⟨u, vs, rfl, hu⟩ := h.opens
  obtain ⟨t, l₂, ht, hd, -⟩ := hr.uncons
  obtain ⟨l', ha, hs⟩ := accept_run_not hd (show t.kind ≠ .rparen from fun hk => by
    rw [← ht, hk] at hu
    cases hu)
  refine ⟨l', hs, ?_⟩
  rw [arguments_eq, bind_run ha]
  rfl

theorem arguments_run (callee : String) (argument : ParseM (Option Measured)) (args : List (List Placed × Measured))
    (hexpr : ∀ arg ∈ args, Expression 0 depth arg.1 arg.2.expr)
    (hargs : ∀ arg ∈ args, ∀ l l₁, l.Reads arg.1 l₁ → Delimited l₁ →
      ∃ l', argument l = .ok (some arg.2, l') ∧ l'.stream = l₁.stream)
    (h : l.Reads (separated depth (args.map (·.1)) ++ [(.rparen, depth)]) l₁) :
    ∃ l', arguments callee argument l = .ok (args.map (·.2), l') ∧ l'.stream = l₁.stream := by
  obtain ⟨l₂, h₂, hclose⟩ := h.split
  obtain ⟨t, l₃, ht, hd, hr⟩ := hclose.uncons
  have hs₃ := Reads.nil_iff.1 hr
  cases args with
  | nil =>
    obtain ⟨l', ha, hs'⟩ := accept_run (hd.congr_left (Reads.nil_iff.1 h₂)) ht
    refine ⟨l', ?_, hs'.trans hs₃⟩
    unfold arguments
    rw [bind_run ha]
    rfl
  | cons first more =>
    rw [List.map_cons, separated_cons] at h₂
    obtain ⟨l₄, hfirst, hmore⟩ := h₂.split
    have hdelim₂ : Delimited l₂ := ⟨t, l₃, hd, .inr ht⟩
    have hdelim₄ : Delimited l₄ := by
      cases more with
      | nil => exact hdelim₂.congr (Reads.nil_iff.1 hmore)
      | cons next more =>
        obtain ⟨u, l₅, hu, hd, -⟩ := hmore.uncons
        exact ⟨u, l₅, hd, .inl hu⟩
    obtain ⟨l₅, hs₅, ha⟩ := arguments_run_first callee argument (hexpr first List.mem_cons_self) hfirst
    obtain ⟨l₆, hf, hs₆⟩ := hargs first List.mem_cons_self l₅ l₄ (hfirst.congr_left hs₅) hdelim₄
    obtain ⟨l₇, hm, hs₇⟩ : ∃ l₇, many (afterComma (required (.inArgs callee) argument)) l₆ =
        .ok (more.map (·.2), l₇) ∧ l₇.stream = l₂.stream := by
      refine many_afterComma_run (Q := Delimited) ?_ ?_ ?_ ?_ (hmore.congr_left hs₆)
      · intro arg harg l l₁ hr hQ
        obtain ⟨l', hl', hs'⟩ := hargs arg (List.mem_cons_of_mem first harg) l l₁ hr hQ
        exact ⟨l', required_run hl', hs'⟩
      · intro l t l' hd ht
        exact ⟨t, l', hd, .inl ht⟩
      · intro arg harg
        exact (hexpr arg (List.mem_cons_of_mem first harg)).ne_eof
      · intro l hs
        exact ⟨hdelim₂.congr hs, t, l₃, hd.congr_left hs, by simp [ht]⟩
    obtain ⟨l₈, he, hs₈⟩ := expect_run (hd.congr_left hs₇) ht (.afterArgs callee)
    refine ⟨l₈, ?_, hs₈.trans hs₃⟩
    rw [ha, bind_run (required_run hf), bind_run hm, bind_run he]
    rfl

/-- The parser of atoms one level down, if there is a level left. -/
def below : Nat → Option (ParseM (Option Measured))
  | 0 => none
  | room + 1 => some (ParseM.atom room)

theorem atom_eq (room : Nat) : ParseM.atom room = atomWith (below room) := by cases room <;> rfl

theorem enter_below (l : Lexer) (loc : Location) {room : Nat} (hroom : room + depth = maxNesting)
    (hd : depth + 1 ≤ maxNesting) :
    ∃ r, r + (depth + 1) = maxNesting ∧ enter (below room) loc l = .ok (ParseM.atom r, l) := by
  obtain ⟨r, rfl⟩ : ∃ r, room = r + 1 := ⟨room - 1, by omega⟩
  exact ⟨r, by omega, rfl⟩

theorem Reaches.run_delimited (h : Reaches level depth us e) {room : Nat} (hroom : room + depth = maxNesting)
    (hr : l.Reads us l₁) (hdelim : Delimited l₁) :
    ∃ l₂, binary (ParseM.atom room) 0 l = .ok (some e.measured, l₂) ∧ l₂.stream = l₁.stream := by
  have hstop := hdelim.stops level
  obtain ⟨t, l', hd, ht⟩ := hdelim
  refine h.run hroom hr hstop (Nat.zero_le _) hd fun op hop => ?_
  rcases ht with ht | ht <;> rw [ht] at hop <;> cases hop

theorem isAtom_number (depth : Nat) (value : Word) : IsAtom depth [(.number value, depth)] (.num value) := by
  intro room l l₁ _ hr _
  obtain ⟨t, l₂, ht, hd, hr⟩ := hr.uncons
  obtain ⟨l', hn, hs⟩ := next_run hd
  refine ⟨l', ?_, hs.trans (Reads.nil_iff.1 hr)⟩
  rw [atom_eq, atomWith, bind_run hn, ht]
  rfl

theorem isAtom_name (depth : Nat) (x : String) : IsAtom depth [(.ident x, depth)] (.var x) := by
  intro room l l₁ _ hr hstop
  obtain ⟨t, l₂, ht, hd, hr⟩ := hr.uncons
  obtain ⟨u, l₃, hu, hparen, -⟩ := hstop
  have hs₂ := Reads.nil_iff.1 hr
  obtain ⟨l₄, hn, hs⟩ := next_run hd
  obtain ⟨l', ha, hs'⟩ := accept_run_not (hu.congr_left (hs.trans hs₂)) hparen
  refine ⟨l', ?_, hs'.trans (hs.trans hs₂)⟩
  rw [atom_eq, atomWith, bind_run hn, ht]
  simp only
  rw [bind_run ha]
  rfl

theorem isAtom_call (callee : String) {args : List (List Placed × Expr)} (hd : depth + 1 ≤ maxNesting)
    (hexpr : ∀ arg ∈ args, Expression 0 (depth + 1) arg.1 arg.2)
    (hargs : ∀ arg ∈ args, Reaches 0 (depth + 1) arg.1 arg.2) :
    IsAtom depth ((.ident callee, depth) :: (.lparen, depth + 1) ::
      (separated (depth + 1) (args.map (·.1)) ++ [(.rparen, depth + 1)])) (.call callee (args.map (·.2))) := by
  intro room l l₁ hroom hr _
  obtain ⟨t, l₂, ht, hdel, hr⟩ := hr.uncons
  obtain ⟨u, l₃, hu, hdel', hr⟩ := hr.uncons
  obtain ⟨l₄, hn, hs₄⟩ := next_run hdel
  obtain ⟨l₅, ha, hs₅⟩ := accept_run (hdel'.congr_left hs₄) hu
  obtain ⟨r, hr', henter⟩ := enter_below l₅ t.loc hroom hd
  -- the arguments come with their heights
  obtain ⟨l', hargs', hs'⟩ := arguments_run callee (binary (ParseM.atom r) 0)
    (args.map fun arg => (arg.1, arg.2.measured)) (List.forall_mem_map.2 hexpr)
    (List.forall_mem_map.2 fun arg harg l l₁ hr hdelim => (hargs arg harg).run_delimited hr' hr hdelim)
    (by simpa only [List.map_map, Function.comp_def] using hr.congr_left hs₅)
  have hcall : Measured.call callee ((args.map fun arg => (arg.1, arg.2.measured)).map (·.2)) =
      (Expr.call callee (args.map (·.2))).measured := by
    rw [Measured.eq_measured (Measured.call _ _)]
    simp only [Measured.call, List.map_map, Function.comp_def, Expr.expr_measured]
  refine ⟨l', ?_, hs'⟩
  rw [atom_eq, atomWith, bind_run hn, ht]
  simp only
  rw [bind_run ha]
  simp only [if_true]
  rw [bind_run henter, bind_run hargs', ← hcall]
  rfl

theorem isAtom_group (hd : depth + 1 ≤ maxNesting) (h : Reaches 0 (depth + 1) us e) :
    IsAtom depth ((.lparen, depth + 1) :: (us ++ [(.rparen, depth + 1)])) e := by
  intro room l l₁ hroom hr _
  obtain ⟨t, l₂, ht, hdel, hr⟩ := hr.uncons
  obtain ⟨l₃, hus, hr⟩ := hr.split
  obtain ⟨u, l₄, hu, hdel', hr⟩ := hr.uncons
  obtain ⟨l₅, hn, hs₅⟩ := next_run hdel
  obtain ⟨r, hr', henter⟩ := enter_below l₅ t.loc hroom hd
  obtain ⟨l₆, hb, hs₆⟩ := h.run_delimited hr' (hus.congr_left hs₅) ⟨u, l₄, hdel', .inr hu⟩
  obtain ⟨l', he, hs'⟩ := expect_run (hdel'.congr_left hs₆) hu .afterGroup
  refine ⟨l', ?_, hs'.trans (Reads.nil_iff.1 hr)⟩
  rw [atom_eq, atomWith, bind_run hn, ht]
  simp only
  rw [bind_run henter, bind_run (required_run hb), bind_run he]
  rfl

theorem isAtom_sign (op : UnaryOp) (hd : depth + 1 ≤ maxNesting) (h : IsAtom (depth + 1) us e) :
    IsAtom depth ((op.token, depth) :: us) (.unary op e) := by
  intro room l l₁ hroom hr hstop
  obtain ⟨t, l₂, ht, hdel, hr⟩ := hr.uncons
  obtain ⟨l₃, hn, hs₃⟩ := next_run hdel
  obtain ⟨r, hr', henter⟩ := enter_below l₃ t.loc hroom hd
  obtain ⟨l', ha, hs'⟩ := h r l₃ l₁ hr' (hr.congr_left hs₃) hstop
  have hsign : Measured.unary op e.measured = (Expr.unary op e).measured := Measured.eq_measured _
  refine ⟨l', ?_, hs'⟩
  rw [atom_eq, atomWith, bind_run hn, ht]
  cases op with
  | identity =>
    simp only [UnaryOp.token]
    rw [bind_run henter, ← hsign]
    exact map_run (map_run (required_run ha))
  | negate =>
    simp only [UnaryOp.token]
    rw [bind_run henter, ← hsign]
    exact map_run (map_run (required_run ha))

/-- The induction is on the derivation; an expression on the level of atoms is moreover read as an atom. -/
theorem reaches_of_expression (h : Expression level depth us e) : Shallow us → e.height ≤ maxNesting + 1 →
    (level = 5 → IsAtom depth us e) ∧ Reaches level depth us e := by
  induction h with
  | number depth value =>
    intro _ _
    exact ⟨fun _ => isAtom_number depth value, (isAtom_number depth value).reaches⟩
  | name depth x =>
    intro _ _
    exact ⟨fun _ => isAtom_name depth x, (isAtom_name depth x).reaches⟩
  | call callee args hexpr ih =>
    intro hs hh
    obtain ⟨-, hs⟩ := Shallow.cons_iff.1 hs
    obtain ⟨hd, hs⟩ := Shallow.cons_iff.1 hs
    have hatom := isAtom_call callee hd hexpr fun arg harg => by
      refine (ih arg harg ?_ ?_).2
      · exact fun u hu => hs u (List.mem_append_left _
          (mem_separated_of_mem (List.mem_map_of_mem (f := (·.1)) harg) hu))
      · simp only [Expr.height] at hh
        exact Expr.maxHeight_le_iff.1 (Nat.le_of_succ_le hh) _ (List.mem_map_of_mem harg)
    exact ⟨fun _ => hatom, hatom.reaches⟩
  | group _ ih =>
    intro hs hh
    obtain ⟨hd, hs⟩ := Shallow.cons_iff.1 hs
    have hatom := isAtom_group hd (ih (Shallow.append_iff.1 hs).1 hh).2
    exact ⟨fun _ => hatom, hatom.reaches⟩
  | sign op hexpr ih =>
    intro hs hh
    simp only [Expr.height] at hh
    obtain ⟨-, hs⟩ := Shallow.cons_iff.1 hs
    have hatom := isAtom_sign op (hexpr.depth_le hs) ((ih hs (by omega)).1 rfl)
    exact ⟨fun _ => hatom, hatom.reaches⟩
  | tighter hlt _ ih =>
    intro hs hh
    refine ⟨fun h => by omega, fun room l l₁ hroom hr hstop j hj => ?_⟩
    exact (ih hs hh).2 room l l₁ hroom hr (hstop.mono (Nat.le_succ _)) j (by omega)
  | operation op hop _ _ ihl ihr =>
    intro hs hh
    obtain rfl := mem_operators_iff.1 hop
    obtain ⟨hsl, hs⟩ := Shallow.append_iff.1 hs
    obtain ⟨-, hsr⟩ := Shallow.cons_iff.1 hs
    have hlt := op.precedence_lt
    have hheight := hh
    simp only [Expr.height] at hheight
    exact ⟨fun h => by omega, .operation (ihl hsl (by omega)).2 (ihr hsr (by omega)).2 hh⟩

theorem expression_run {room : Nat} (hroom : room + depth = maxNesting) (h : Expression 0 depth us e)
    (hs : Shallow us) (hheight : depth + e.height - 1 ≤ maxNesting) (hr : l.Reads us l₁) (hd : l₁.Delivers t l')
    (ht : t.kind ≠ .lparen) (hop : t.kind.binaryOp? = none) :
    ∃ l₂, expression room l = .ok (some e, l₂) ∧ l₂.stream = l₁.stream := by
  have hnone : ∀ n op, t.kind.binaryOp? = some op → op.precedence < n := by
    intro n op h
    rw [hop] at h
    cases h
  obtain ⟨u, l₃, hpeek⟩ : ∃ u l₃, l.Delivers u l₃ := by
    obtain ⟨u, vs, rfl, -⟩ := h.opens
    obtain ⟨t, l₃, -, hd, -⟩ := hr.uncons
    exact ⟨t, l₃, hd⟩
  obtain ⟨l₄, hp, hs₄⟩ := peek_run hpeek
  have hreaches := (reaches_of_expression h hs (by omega)).2
  obtain ⟨l₂, hb, hs₂⟩ := hreaches.run hroom (hr.congr_left hs₄) ⟨t, l', hd, ht, fun op h => by
    rw [hop] at h; cases h⟩ (Nat.le_refl _) hd (hnone 0)
  refine ⟨l₂, ?_, hs₂⟩
  unfold expression
  rw [bind_run hp, bind_run hb]
  have hlow : ¬ room + 1 < e.measured.height := by
    rw [Expr.height_measured]
    omega
  simp only [if_neg hlow]
  rfl

/-- No expression starts at a token of another kind. -/
theorem expression_run_none (room : Nat) (hd : l.Delivers t l') (ht : t.kind.opensExpression = false) :
    ∃ l₂, expression room l = .ok (none, l₂) ∧ l₂.stream = l.stream := by
  obtain ⟨l₃, hp, hs₃⟩ := peek_run hd
  obtain ⟨l₄, hn, -⟩ := next_run (hd.congr_left hs₃)
  have hatom : ParseM.atom room l₃ = .ok (none, l₄.revert t) := by
    rw [atom_eq, atomWith, bind_run hn]
    cases hk : t.kind with
    | number | ident | lparen | plus | minus =>
      rw [hk] at ht
      cases ht
    | _ => rfl
  refine ⟨l₄.revert t, ?_, (next_ok hn).stream_revert.trans hs₃⟩
  unfold expression
  rw [bind_run hp, binary_eq, bind_run (bind_run hatom)]
  rfl

/-! ## Statements -/

theorem assignee_run {target : String} (hr : l.Reads [(.ident target, depth), (.assign, depth)] l₁) :
    ∃ l', assignee l = .ok (some target, l') ∧ l'.stream = l₁.stream := by
  obtain ⟨t, l₂, ht, hd, hr⟩ := hr.uncons
  obtain ⟨u, l₃, hu, hd', hr⟩ := hr.uncons
  obtain ⟨l₄, hn, hs₄⟩ := next_run hd
  obtain ⟨l', hn', hs'⟩ := next_run (hd'.congr_left hs₄)
  refine ⟨l', ?_, hs'.trans (Reads.nil_iff.1 hr)⟩
  unfold assignee
  rw [bind_run hn, ht]
  simp only
  rw [bind_run hn', if_pos hu]
  rfl

/-- Without `=` as the second token there is no assignment, and both tokens are handed back. -/
theorem assignee_run_none {u v : Placed} (hr : l.Reads (u :: v :: us) l₁) (hv : v.1 ≠ .assign) :
    ∃ l', assignee l = .ok (none, l') ∧ l'.stream = l.stream := by
  obtain ⟨t, l₂, ht, hd, hr⟩ := hr.uncons
  obtain ⟨t', l₃, ht', hd', -⟩ := hr.uncons
  obtain ⟨l₄, hn, hs₄⟩ := next_run hd
  obtain ⟨l₅, hn', hs₅⟩ := next_run (hd'.congr_left hs₄)
  unfold assignee
  rw [bind_run hn]
  cases hk : t.kind with
  | ident x =>
    refine ⟨(l₅.revert t').revert t, ?_, ?_⟩
    · simp only
      rw [bind_run hn', if_neg (by rwa [ht'])]
      rfl
    · rw [delivers_revert, (next_ok hn').stream_revert]
      exact (next_ok hn).symm
  | _ => exact ⟨l₄.revert t, rfl, (next_ok hn).stream_revert⟩

/-- The parser of the statements of blocks, if there is a level left. -/
def within : Nat → Option (ParseM (Option Stmt))
  | 0 => none
  | room + 1 => some (statement room)

theorem statement_eq (room : Nat) : statement room = statementWith room (within room) := by cases room <;> rfl

/-- The end of a block is no statement. -/
theorem statement_run_none (room : Nat) (hd : l.Delivers t l') (ht : t.kind = .rbrace) :
    ∃ l₂, statement room l = .ok (none, l₂) ∧ l₂.stream = l.stream := by
  obtain ⟨l₃, ha, hs₃⟩ := accept_run_not hd (show t.kind ≠ .kwReturn by simp [ht])
  have hd₃ := hd.congr_left hs₃
  obtain ⟨l₄, has, hs₄⟩ : ∃ l₄, assignee l₃ = .ok (none, l₄) ∧ l₄.stream = l₃.stream := by
    obtain ⟨l₄, hn, -⟩ := next_run hd₃
    refine ⟨l₄.revert t, ?_, (next_ok hn).stream_revert⟩
    unfold assignee
    rw [bind_run hn, ht]
    rfl
  have hd₄ := hd₃.congr_left hs₄
  obtain ⟨l₅, hif, hs₅⟩ := accept_run_not hd₄ (show t.kind ≠ .kwIf by simp [ht])
  have hd₅ := hd₄.congr_left hs₅
  obtain ⟨l₆, hp, hs₆⟩ := peek_run hd₅
  obtain ⟨l₇, he, hs₇⟩ := expression_run_none room (hd₅.congr_left hs₆) (by rw [ht]; rfl)
  refine ⟨l₇, ?_, hs₇.trans (hs₆.trans (hs₅.trans (hs₄.trans hs₃)))⟩
  rw [statement_eq, statementWith, bind_run ha]
  simp only [Bool.false_eq_true, if_false]
  rw [bind_run has]
  simp only
  rw [bind_run hif]
  simp only [Bool.false_eq_true, if_false]
  rw [bind_run hp, if_neg (by simp [ht]), bind_run he]
  rfl

/-- A token other than `else` comes next. -/
def Ended (l : Lexer) : Prop := ∃ t l', l.Delivers t l' ∧ t.kind ≠ .kwElse

theorem Ended.congr (h : Ended l) (hs : l'.stream = l.stream) : Ended l' := by
  obtain ⟨t, l₁, hd, ht⟩ := h
  exact ⟨t, l₁, hd.congr_left hs, ht⟩

/-- A statement is read where no `else` follows. -/
def IsStmt (depth : Nat) (us : List Placed) (s : Stmt) : Prop :=
  ∀ room l l₁, room + depth = maxNesting → l.Reads us l₁ → Ended l₁ →
    ∃ l', statement room l = .ok (some s, l') ∧ l'.stream = l₁.stream

theorem terminated_run {room : Nat} (place : ParseError.Place) (hroom : room + depth = maxNesting)
    (h : Expression 0 depth us e) (hs : Shallow us) (hheight : depth + e.height - 1 ≤ maxNesting)
    (hr : l.Reads (us ++ [(.semicolon, depth)]) l₁) :
    ∃ l₂ t l', expression room l = .ok (some e, l₂) ∧ expect .semicolon place l₂ = .ok (t, l') ∧
      l'.stream = l₁.stream := by
  obtain ⟨l₃, hus, hr⟩ := hr.split
  obtain ⟨t, l₄, ht, hd, hr⟩ := hr.uncons
  obtain ⟨l₂, he, hs₂⟩ := expression_run hroom h hs hheight hus hd (by simp [ht]) (by rw [ht]; rfl)
  obtain ⟨l', hx, hs'⟩ := expect_run (hd.congr_left hs₂) ht place
  exact ⟨l₂, t, l', he, hx, hs'.trans (Reads.nil_iff.1 hr)⟩

/-- What a statement goes on with behind `return`. -/
theorem statement_run_leave (room : Nat) (hd : l.Delivers t l₁) (ht : t.kind = .kwReturn) :
    ∃ l' : Lexer, l'.stream = l₁.stream ∧ statement room l = (do
      let value ← expression room
      let _ ← expect .semicolon .afterReturn
      return some (Stmt.ret value)) l' := by
  obtain ⟨l', ha, hs⟩ := accept_run hd ht
  refine ⟨l', hs, ?_⟩
  rw [statement_eq, statementWith, bind_run ha]
  rfl

/-- What a statement goes on with behind a name and `=`. -/
theorem statement_run_set (room : Nat) {target : String}
    (hr : l.Reads [(.ident target, depth), (.assign, depth)] l₁) :
    ∃ l' : Lexer, l'.stream = l₁.stream ∧ statement room l = (do
      let value ← required .afterAssign (expression room)
      let _ ← expect .semicolon .afterAssignment
      return some (Stmt.set target value)) l' := by
  obtain ⟨t, l₂, ht, hd, -⟩ := hr.uncons
  obtain ⟨l₃, ha, hs₃⟩ := accept_run_not hd (show t.kind ≠ .kwReturn by simp [ht])
  obtain ⟨l', has, hs⟩ := assignee_run (hr.congr_left hs₃)
  refine ⟨l', hs, ?_⟩
  rw [statement_eq, statementWith, bind_run ha]
  simp only [Bool.false_eq_true, if_false]
  rw [bind_run has]

/-- A statement that starts with `if` is a conditional. -/
theorem statement_run_if (room : Nat) {v : Placed} (hr : l.Reads ((.kwIf, depth) :: v :: us) l₁)
    (hv : v.1 ≠ .assign) :
    ∃ l', l'.Reads (v :: us) l₁ ∧ statement room l = (some <$> conditional room (within room)) l' := by
  obtain ⟨t, l₂, ht, hd, hr'⟩ := hr.uncons
  obtain ⟨l₃, ha, hs₃⟩ := accept_run_not hd (show t.kind ≠ .kwReturn by simp [ht])
  obtain ⟨l₄, has, hs₄⟩ := assignee_run_none (hr.congr_left hs₃) hv
  obtain ⟨l', hif, hs⟩ := accept_run (hd.congr_left (hs₄.trans hs₃)) ht
  refine ⟨l', hr'.congr_left hs, ?_⟩
  rw [statement_eq, statementWith, bind_run ha]
  simp only [Bool.false_eq_true, if_false]
  rw [bind_run has]
  simp only
  rw [bind_run hif]
  rfl

/-- A statement that starts with an expression, up to a semicolon, is no other one. -/
theorem statement_run_expr (room : Nat) (h : Expression 0 depth us e)
    (hr : l.Reads (us ++ [(.semicolon, depth)]) l₁) :
    ∃ l' : Lexer, l'.stream = l.stream ∧ statement room l = (do
      match ← expression room with
      | none => return none
      | some e =>
        let _ ← expect .semicolon .afterExpr
        return some (Stmt.expr e)) l' := by
  obtain ⟨u, vs, rfl, hu⟩ := h.opens
  have hne : ∀ kind, kind.opensExpression = false → u.1 ≠ kind := by
    intro kind hk hku
    rw [hku, hk] at hu
    cases hu
  -- The token behind the first one is no `=`: it is in the expression, or it is the semicolon.
  obtain ⟨v, ws, hvs, hv⟩ : ∃ v ws, vs ++ [(.semicolon, depth)] = v :: ws ∧ v.1 ≠ .assign := by
    cases vs with
    | nil => exact ⟨_, _, rfl, by simp⟩
    | cons v vs =>
      refine ⟨v, _, rfl, fun hk => ?_⟩
      have hin := (h.tokens v (by simp)).1
      rw [hk] at hin
      cases hin
  rw [List.cons_append, hvs] at hr
  obtain ⟨t, l₂, ht, hd, -⟩ := hr.uncons
  obtain ⟨l₃, ha, hs₃⟩ := accept_run_not hd (show t.kind ≠ .kwReturn from ht ▸ hne _ rfl)
  obtain ⟨l₄, has, hs₄⟩ := assignee_run_none (hr.congr_left hs₃) hv
  have hs₄' := hs₄.trans hs₃
  obtain ⟨l₅, hif, hs₅⟩ := accept_run_not (hd.congr_left hs₄') (show t.kind ≠ .kwIf from ht ▸ hne _ rfl)
  have hs₅' := hs₅.trans hs₄'
  obtain ⟨l', hp, hs⟩ := peek_run (hd.congr_left hs₅')
  have hfunc : ¬ (t.kind = .kwFunc ∨ t.kind = .kwProc) := by
    rw [ht]
    exact not_or.2 ⟨hne _ rfl, hne _ rfl⟩
  refine ⟨l', hs.trans hs₅', ?_⟩
  rw [statement_eq, statementWith, bind_run ha]
  simp only [Bool.false_eq_true, if_false]
  rw [bind_run has]
  simp only
  rw [bind_run hif]
  simp only [Bool.false_eq_true, if_false]
  rw [bind_run hp]
  exact congrFun (if_neg hfunc) l'

theorem isStmt_leave (depth : Nat) : IsStmt depth [(.kwReturn, depth), (.semicolon, depth)] (.ret none) := by
  intro room l l₁ hroom hr _
  obtain ⟨t, l₂, ht, hd, hr⟩ := hr.uncons
  obtain ⟨u, l₃, hu, hd', hr⟩ := hr.uncons
  obtain ⟨l₄, hs₄, hrun⟩ := statement_run_leave room hd ht
  have hd₄ := hd'.congr_left hs₄
  obtain ⟨l₅, he, hs₅⟩ := expression_run_none room hd₄ (by rw [hu]; rfl)
  obtain ⟨l', hx, hs'⟩ := expect_run (hd₄.congr_left hs₅) hu .afterReturn
  refine ⟨l', ?_, hs'.trans (Reads.nil_iff.1 hr)⟩
  rw [hrun, bind_run he, bind_run hx]
  rfl

theorem isStmt_leaveWith (h : Expression 0 depth us e) (hs : Shallow us)
    (hheight : depth + e.height - 1 ≤ maxNesting) :
    IsStmt depth ((.kwReturn, depth) :: (us ++ [(.semicolon, depth)])) (.ret (some e)) := by
  intro room l l₁ hroom hr _
  obtain ⟨t, l₂, ht, hd, hr⟩ := hr.uncons
  obtain ⟨l₃, hs₃, hrun⟩ := statement_run_leave room hd ht
  obtain ⟨l₄, u, l', he, hx, hs'⟩ := terminated_run .afterReturn hroom h hs hheight (hr.congr_left hs₃)
  refine ⟨l', ?_, hs'⟩
  rw [hrun, bind_run he, bind_run hx]
  rfl

theorem isStmt_set (target : String) (h : Expression 0 depth us e) (hs : Shallow us)
    (hheight : depth + e.height - 1 ≤ maxNesting) :
    IsStmt depth ((.ident target, depth) :: (.assign, depth) :: (us ++ [(.semicolon, depth)])) (.set target e) := by
  intro room l l₁ hroom hr _
  obtain ⟨l₂, hr₂, hr⟩ := Reads.split (show l.Reads ([(.ident target, depth), (.assign, depth)] ++ _) l₁ from hr)
  obtain ⟨l₃, hs₃, hrun⟩ := statement_run_set room hr₂
  obtain ⟨l₄, u, l', he, hx, hs'⟩ := terminated_run .afterAssignment hroom h hs hheight (hr.congr_left hs₃)
  refine ⟨l', ?_, hs'⟩
  rw [hrun, bind_run (required_run he), bind_run hx]
  rfl

theorem isStmt_expr (h : Expression 0 depth us e) (hs : Shallow us) (hheight : depth + e.height - 1 ≤ maxNesting) :
    IsStmt depth (us ++ [(.semicolon, depth)]) (.expr e) := by
  intro room l l₁ hroom hr _
  obtain ⟨l₂, hs₂, hrun⟩ := statement_run_expr room h hr
  obtain ⟨l₃, t, l', he, hx, hs'⟩ := terminated_run .afterExpr hroom h hs hheight (hr.congr_left hs₂)
  refine ⟨l', ?_, hs'⟩
  rw [hrun, bind_run he]
  simp only
  rw [bind_run hx]
  rfl

/-- A repetition of statements reads those that come one after the other; what it does then is up to one more. -/
theorem statements_items (room : Nat) {body : List (List Placed × Stmt)} (hroom : room + depth = maxNesting)
    (hbody : ∀ s ∈ body, Statement depth s.1 s.2) (hstmt : ∀ s ∈ body, IsStmt depth s.1 s.2)
    (hr : l.Reads (body.map (·.1)).flatten l₁) (hend : Ended l₁) :
    ∃ l₂, l₂.stream = l₁.stream ∧
      (∀ l', statement room l₂ = .ok (none, l') → many (statement room) l = .ok (body.map (·.2), l')) ∧
      ∀ e, statement room l₂ = .error e → many (statement room) l = .error e := by
  refine many_items (Q := Ended) ?_ ?_ ?_ (fun l hs => hend.congr hs) hr
  · intro s hs l l₁ hr hQ
    exact hstmt s hs room l l₁ hroom hr hQ
  · intro s hs l l₁ hr
    obtain ⟨⟨u, vs, hus, hu, -⟩, -⟩ := (hbody s hs).tokens
    rw [hus] at hr
    obtain ⟨t, l₂, ht, hd, -⟩ := hr.uncons
    exact ⟨t, l₂, hd, ht ▸ hu⟩
  · intro s hs
    obtain ⟨⟨u, vs, hus, -⟩, hne⟩ := (hbody s hs).tokens
    exact ⟨by simp [hus], hne⟩

/-- Statements up to a closing brace. -/
theorem statements_run (room : Nat) {body : List (List Placed × Stmt)} (hroom : room + depth = maxNesting)
    (hbody : ∀ s ∈ body, Statement depth s.1 s.2) (hstmt : ∀ s ∈ body, IsStmt depth s.1 s.2)
    (hr : l.Reads (body.map (·.1)).flatten l₁) (hd : l₁.Delivers t l') (ht : t.kind = .rbrace) :
    ∃ l₂, many (statement room) l = .ok (body.map (·.2), l₂) ∧ l₂.stream = l₁.stream := by
  obtain ⟨l₃, hs₃, hnone, -⟩ := statements_items room hroom hbody hstmt hr ⟨t, l', hd, by simp [ht]⟩
  obtain ⟨l₂, hrun, hs₂⟩ := statement_run_none room (hd.congr_left hs₃) ht
  exact ⟨l₂, hnone l₂ hrun, hs₂.trans hs₃⟩

theorem block_run {room : Nat} {body : List (List Placed × Stmt)} (place : ParseError.Place)
    (hroom : room + depth = maxNesting) (hdepth : depth + 1 ≤ maxNesting)
    (hbody : ∀ s ∈ body, Statement (depth + 1) s.1 s.2) (hstmt : ∀ s ∈ body, IsStmt (depth + 1) s.1 s.2)
    (hr : l.Reads (braced depth (body.map (·.1))) l₁) :
    ∃ l', block place (within room) l = .ok (body.map (·.2), l') ∧ l'.stream = l₁.stream := by
  obtain ⟨t, l₂, ht, hd, hr⟩ := hr.uncons
  obtain ⟨l₃, hr₃, hr⟩ := hr.split
  obtain ⟨u, l₄, hu, hd', hr⟩ := hr.uncons
  obtain ⟨r, rfl⟩ : ∃ r, room = r + 1 := ⟨room - 1, by omega⟩
  obtain ⟨l₅, hopen, hs₅⟩ := expect_run hd ht place
  obtain ⟨l₆, hmany, hs₆⟩ := statements_run r (by omega) hbody hstmt (hr₃.congr_left hs₅) hd' hu
  obtain ⟨l', hclose, hs'⟩ := expect_run (hd'.congr_left hs₆) hu .afterBlock
  have henter : enter (within (r + 1)) t.loc l₅ = .ok (statement r, l₅) := rfl
  refine ⟨l', ?_, hs'.trans (Reads.nil_iff.1 hr)⟩
  unfold block
  rw [bind_run hopen, bind_run henter, bind_run hmany, bind_run hclose]
  rfl

/-- What a conditional goes on with behind its condition. -/
theorem conditional_run_test {room : Nat} {inner : Option (ParseM (Option Stmt))} (hroom : room + depth = maxNesting)
    (h : Expression 0 depth us e) (hs : Shallow us) (hheight : depth + e.height - 1 ≤ maxNesting)
    (hr : l.Reads ((.lparen, depth) :: (us ++ [(.rparen, depth)])) l₁) :
    ∃ l' : Lexer, l'.stream = l₁.stream ∧ conditional room inner l = (do
      let yes ← block .afterCondition inner
      if ← accept .kwElse then
        return Stmt.ifElse e yes (← block .afterElse inner)
      else
        return Stmt.ifThen e yes) l' := by
  obtain ⟨t, l₂, ht, hd, hr⟩ := hr.uncons
  obtain ⟨l₃, hus, hr⟩ := hr.split
  obtain ⟨u, l₄, hu, hd', hr⟩ := hr.uncons
  obtain ⟨l₅, hopen, hs₅⟩ := expect_run hd ht .afterIf
  obtain ⟨l₆, he, hs₆⟩ := expression_run hroom h hs hheight (hus.congr_left hs₅) hd' (by simp [hu]) (by rw [hu]; rfl)
  obtain ⟨l', hclose, hs'⟩ := expect_run (hd'.congr_left hs₆) hu .afterCondition
  refine ⟨l', hs'.trans (Reads.nil_iff.1 hr), ?_⟩
  unfold conditional
  rw [bind_run hopen, bind_run (required_run he), bind_run hclose]

theorem isStmt_ifThen {body : List (List Placed × Stmt)} (h : Expression 0 depth us e) (hs : Shallow us)
    (hheight : depth + e.height - 1 ≤ maxNesting) (hdepth : depth + 1 ≤ maxNesting)
    (hbody : ∀ s ∈ body, Statement (depth + 1) s.1 s.2) (hstmt : ∀ s ∈ body, IsStmt (depth + 1) s.1 s.2) :
    IsStmt depth (condition depth us ++ braced depth (body.map (·.1))) (.ifThen e (body.map (·.2))) := by
  intro room l l₁ hroom hr hend
  obtain ⟨l₀, hr, hrun⟩ := statement_run_if room hr (by simp)
  obtain ⟨l₂, hr₂, hr⟩ := Reads.split
    (show l₀.Reads (((.lparen, depth) :: (us ++ [(.rparen, depth)])) ++ braced depth (body.map (·.1))) l₁ from hr)
  obtain ⟨l₅, hs₅, htest⟩ := conditional_run_test hroom h hs hheight hr₂
  obtain ⟨l₆, hb, hs₆⟩ := block_run .afterCondition hroom hdepth hbody hstmt (hr.congr_left hs₅)
  obtain ⟨w, l₇, hw, hne⟩ := hend
  obtain ⟨l', ha, hs'⟩ := accept_run_not (hw.congr_left hs₆) hne
  refine ⟨l', ?_, hs'.trans hs₆⟩
  have hcond : conditional room (within room) l₀ = .ok (.ifThen e (body.map (·.2)), l') := by
    rw [htest, bind_run hb, bind_run ha]
    rfl
  rw [hrun, map_run hcond]

theorem isStmt_ifElse {yes no : List (List Placed × Stmt)} (h : Expression 0 depth us e) (hs : Shallow us)
    (hheight : depth + e.height - 1 ≤ maxNesting) (hdepth : depth + 1 ≤ maxNesting)
    (hyes : ∀ s ∈ yes, Statement (depth + 1) s.1 s.2) (hyes' : ∀ s ∈ yes, IsStmt (depth + 1) s.1 s.2)
    (hno : ∀ s ∈ no, Statement (depth + 1) s.1 s.2) (hno' : ∀ s ∈ no, IsStmt (depth + 1) s.1 s.2) :
    IsStmt depth
      (condition depth us ++ braced depth (yes.map (·.1)) ++ (.kwElse, depth) :: braced depth (no.map (·.1)))
      (.ifElse e (yes.map (·.2)) (no.map (·.2))) := by
  intro room l l₁ hroom hr _
  obtain ⟨l₀, hr, hrun⟩ := statement_run_if room hr (by simp)
  obtain ⟨l₂, hr₂, hr⟩ := Reads.split (show l₀.Reads (((.lparen, depth) :: (us ++ [(.rparen, depth)]) ++
    braced depth (yes.map (·.1))) ++ (.kwElse, depth) :: braced depth (no.map (·.1))) l₁ from hr)
  obtain ⟨l₃, hr₃, hr₂⟩ := hr₂.split
  obtain ⟨l₆, hs₆, htest⟩ := conditional_run_test hroom h hs hheight hr₃
  obtain ⟨l₇, hb, hs₇⟩ := block_run .afterCondition hroom hdepth hyes hyes' (hr₂.congr_left hs₆)
  obtain ⟨w, l₈, hw, hd, hr⟩ := hr.uncons
  obtain ⟨l₉, ha, hs₉⟩ := accept_run (hd.congr_left hs₇) hw
  obtain ⟨l', hb', hs'⟩ := block_run .afterElse hroom hdepth hno hno' (hr.congr_left hs₉)
  refine ⟨l', ?_, hs'⟩
  have hcond : conditional room (within room) l₀ = .ok (.ifElse e (yes.map (·.2)) (no.map (·.2)), l') := by
    rw [htest, bind_run hb, bind_run ha]
    simp only [if_true]
    rw [bind_run hb']
    rfl
  rw [hrun, map_run hcond]

theorem isStmt_of_statement {s : Stmt} (h : Statement depth us s) : Shallow us → Low (s.complete depth) →
    IsStmt depth us s := by
  induction h with
  | expr h =>
    intro hs hlow
    exact isStmt_expr h (Shallow.append_iff.1 hs).1 (Low.cons_iff.1 hlow).1
  | set target h =>
    intro hs hlow
    simp only [Shallow.cons_iff, Shallow.append_iff] at hs
    exact isStmt_set target h hs.2.2.1 (Low.cons_iff.1 hlow).1
  | leave depth =>
    intro _ _
    exact isStmt_leave depth
  | leaveWith h =>
    intro hs hlow
    simp only [Shallow.cons_iff, Shallow.append_iff] at hs
    exact isStmt_leaveWith h hs.2.1 (Low.cons_iff.1 hlow).1
  | ifThen body h hbody ih =>
    intro hs hlow
    rw [Stmt.complete] at hlow
    obtain ⟨hheight, hlow⟩ := Low.cons_iff.1 hlow
    simp only [condition, braced, Shallow.cons_iff, Shallow.append_iff] at hs
    obtain ⟨⟨-, -, hs, -⟩, hdepth, hsb, -⟩ := hs
    refine isStmt_ifThen h hs hheight hdepth hbody fun s hmem => ih s hmem ?_ ?_
    · exact Shallow.flatten_iff.1 hsb _ (List.mem_map_of_mem hmem)
    · exact Low.completeOf_iff.1 hlow _ (List.mem_map_of_mem hmem)
  | ifElse yes no h hyes hno ihy ihn =>
    intro hs hlow
    rw [Stmt.complete] at hlow
    obtain ⟨hheight, hlow⟩ := Low.cons_iff.1 hlow
    obtain ⟨hlowy, hlown⟩ := Low.append_iff.1 hlow
    simp only [condition, braced, Shallow.cons_iff, Shallow.append_iff] at hs
    obtain ⟨⟨⟨-, -, hs, -⟩, hdepth, hsy, -⟩, -, -, hsn, -⟩ := hs
    refine isStmt_ifElse h hs hheight hdepth hyes (fun s hmem => ihy s hmem ?_ ?_) hno
      (fun s hmem => ihn s hmem ?_ ?_)
    · exact Shallow.flatten_iff.1 hsy _ (List.mem_map_of_mem hmem)
    · exact Low.completeOf_iff.1 hlowy _ (List.mem_map_of_mem hmem)
    · exact Shallow.flatten_iff.1 hsn _ (List.mem_map_of_mem hmem)
    · exact Low.completeOf_iff.1 hlown _ (List.mem_map_of_mem hmem)

/-! ## Programs -/

theorem names_eq (list : ParseError.NameList) : names list = (do
    let t ← next
    match t.kind with
    | .ident first =>
      let more ← many (afterComma (identifier (.afterNameComma list)))
      return first :: more
    | _ =>
      revert t
      return []) := rfl

theorem names_run (list : ParseError.NameList) {xs : List String} (hr : l.Reads (Grammar.names xs) l₁)
    (hd : l₁.Delivers t l') (ht : t.kind = .rparen ∨ t.kind = .semicolon) :
    ∃ l₂, names list l = .ok (xs, l₂) ∧ l₂.stream = l₁.stream := by
  cases xs with
  | nil =>
    have hs := Reads.nil_iff.1 hr
    obtain ⟨l₂, hn, -⟩ := next_run (hd.congr_left hs)
    refine ⟨l₂.revert t, ?_, (next_ok hn).stream_revert.trans hs⟩
    rw [names_eq, bind_run hn]
    rcases ht with ht | ht <;> rw [ht] <;> rfl
  | cons x xs =>
    rw [Grammar.names, List.map_cons, separated_cons] at hr
    obtain ⟨u, l₂, hu, hd', hr⟩ := hr.uncons
    obtain ⟨l₃, hn, hs₃⟩ := next_run hd'
    have hparts : l₃.Reads (((xs.map fun x => ([((.ident x, 0) : Placed)], x)).map (·.1)).map
        ((.comma, 0) :: ·)).flatten l₁ := by simpa [Function.comp_def] using hr.congr_left hs₃
    obtain ⟨l₄, hm, hs₄⟩ : ∃ l₄, many (afterComma (identifier (.afterNameComma list))) l₃ =
        .ok ((xs.map fun x => ([((.ident x, 0) : Placed)], x)).map (·.2), l₄) ∧ l₄.stream = l₁.stream := by
      refine many_afterComma_run (Q := fun _ => True) ?_ (fun _ _ _ _ _ => trivial) ?_ ?_ hparts
      · intro part hpart l l₁ hr _
        obtain ⟨y, -, rfl⟩ := List.mem_map.1 hpart
        obtain ⟨v, l₅, hv, hd, hr⟩ := hr.uncons
        obtain ⟨l', hi, hs'⟩ := identifier_run hd hv (.afterNameComma list)
        exact ⟨l', hi, hs'.trans (Reads.nil_iff.1 hr)⟩
      · intro part hpart u hu
        obtain ⟨y, -, rfl⟩ := List.mem_map.1 hpart
        cases List.mem_singleton.1 hu
        simp
      · intro l hs
        exact ⟨trivial, t, l', hd.congr_left hs, by rcases ht with ht | ht <;> simp [ht]⟩
    refine ⟨l₄, ?_, hs₄⟩
    have hxs : (xs.map fun x => ([((.ident x, 0) : Placed)], x)).map (·.2) = xs := by simp [Function.comp_def]
    rw [hxs] at hm
    rw [names_eq, bind_run hn, hu]
    simp only
    rw [bind_run hm]
    rfl

theorem localNames_run {ls : List Placed} {xs : List String} (h : Locals ls xs) (hr : l.Reads ls l₁)
    (hd : l₁.Delivers t l') (ht : t.kind ≠ .kwVar) :
    ∃ l₂, localNames l = .ok (xs, l₂) ∧ l₂.stream = l₁.stream := by
  cases h with
  | missing =>
    have hs := Reads.nil_iff.1 hr
    obtain ⟨l₂, ha, hs₂⟩ := accept_run_not (hd.congr_left hs) ht
    refine ⟨l₂, ?_, hs₂.trans hs⟩
    unfold localNames
    rw [bind_run ha]
    rfl
  | declared =>
    obtain ⟨u, l₂, hu, hd', hr⟩ := hr.uncons
    obtain ⟨l₃, hnames, hr⟩ := hr.split
    obtain ⟨v, l₄, hv, hd'', hr⟩ := hr.uncons
    obtain ⟨l₅, ha, hs₅⟩ := accept_run hd' hu
    obtain ⟨l₆, hn, hs₆⟩ := names_run .locals (hnames.congr_left hs₅) hd'' (.inr hv)
    obtain ⟨l₇, hx, hs₇⟩ := expect_run (hd''.congr_left hs₆) hv .afterLocals
    refine ⟨l₇, ?_, hs₇.trans (Reads.nil_iff.1 hr)⟩
    unfold localNames
    rw [bind_run ha]
    simp only [if_true]
    rw [bind_run hn, bind_run hx]
    rfl

/-- What a function goes on with behind its locals. -/
theorem function_run_header {ls : List Placed} {name : String} {params locals : List String}
    {body : List (List Placed × Stmt)} {kind : FunctionKind} (hls : Locals ls locals)
    (hbody : ∀ s ∈ body, Statement 0 s.1 s.2)
    (hr : l.Reads ((kind.token, 0) :: (.ident name, 0) :: (.lparen, 0) :: (Grammar.names params ++
      (.rparen, 0) :: (.lbrace, 0) :: (ls ++ ((body.map (·.1)).flatten ++ [(.rbrace, 0)])))) l₁) :
    ∃ l', l'.Reads ((body.map (·.1)).flatten ++ [(.rbrace, 0)]) l₁ ∧ function l = (some <$> do
      let body ← many (statement maxNesting)
      let _ ← expect .rbrace .afterBody
      return (⟨name, params, locals, body, kind⟩ : Function)) l' := by
  obtain ⟨t₀, l₂, ht₀, hd₀, hr⟩ := hr.uncons
  obtain ⟨t₁, l₃, ht₁, hd₁, hr⟩ := hr.uncons
  obtain ⟨t₂, l₄, ht₂, hd₂, hr⟩ := hr.uncons
  obtain ⟨l₅, hparams, hr⟩ := hr.split
  obtain ⟨t₃, l₆, ht₃, hd₃, hr⟩ := hr.uncons
  obtain ⟨t₄, l₇, ht₄, hd₄, hr⟩ := hr.uncons
  obtain ⟨l₈, hlocals, hr⟩ := hr.split
  -- What follows the declaration of the locals: a statement or the closing brace.
  obtain ⟨v, l₉, hv, hne⟩ : ∃ v l₉, l₈.Delivers v l₉ ∧ v.kind ≠ .kwVar := by
    cases body with
    | nil =>
      obtain ⟨v, l₉, hv, hd, -⟩ := hr.uncons
      exact ⟨v, l₉, hd, by simp [hv]⟩
    | cons s body =>
      obtain ⟨⟨u, vs, hus, -, hu⟩, -⟩ := (hbody s List.mem_cons_self).tokens
      rw [List.map_cons, hus] at hr
      obtain ⟨v, l₉, hv, hd, -⟩ := hr.uncons
      exact ⟨v, l₉, hd, hv ▸ hu⟩
  obtain ⟨m₀, hn, hs₀⟩ := next_run hd₀
  obtain ⟨m₁, hi, hs₁⟩ := identifier_run (hd₁.congr_left hs₀) ht₁ .afterFunctionKeyword
  obtain ⟨m₂, hopen, hs₂⟩ := expect_run (hd₂.congr_left hs₁) ht₂ .afterFunctionName
  obtain ⟨m₃, hp, hs₃⟩ := names_run .params (hparams.congr_left hs₂) hd₃ (.inl ht₃)
  obtain ⟨m₄, hclose, hs₄⟩ := expect_run (hd₃.congr_left hs₃) ht₃ .afterParams
  obtain ⟨m₅, hbrace, hs₅⟩ := expect_run (hd₄.congr_left hs₄) ht₄ .beforeBody
  obtain ⟨m₆, hl, hs₆⟩ := localNames_run hls (hlocals.congr_left hs₅) hv hne
  have hdecl : declaration kind m₀ = (do
      let body ← many (statement maxNesting)
      let _ ← expect .rbrace .afterBody
      return (⟨name, params, locals, body, kind⟩ : Function)) m₆ := by
    unfold declaration
    rw [bind_run hi, bind_run hopen, bind_run hp, bind_run hclose, bind_run hbrace, bind_run hl]
  refine ⟨m₆, hr.congr_left hs₆, ?_⟩
  unfold function
  rw [bind_run hn, ht₀]
  cases kind with
  | func => exact map_congr some hdecl
  | proc => exact map_congr some hdecl

theorem function_run {f : Function} (h : Declaration us f) (hs : Shallow us) (hlow : Low (Stmt.completeOf 0 f.body))
    (hr : l.Reads us l₁) : ∃ l', function l = .ok (some f, l') ∧ l'.stream = l₁.stream := by
  cases h with
  | @intro ls name params locals body kind hls hbody =>
    simp only [Shallow.cons_iff, Shallow.append_iff] at hs
    obtain ⟨-, -, -, -, -, -, -, hs, -⟩ := hs
    have hstmt : ∀ s ∈ body, IsStmt 0 s.1 s.2 := fun s hmem => isStmt_of_statement (hbody s hmem)
      (Shallow.flatten_iff.1 hs _ (List.mem_map_of_mem hmem))
      (Low.completeOf_iff.1 hlow _ (List.mem_map_of_mem hmem))
    obtain ⟨l₂, hr, hrun⟩ := function_run_header hls hbody hr
    obtain ⟨l₃, hstmts, hr⟩ := hr.split
    obtain ⟨t, l₄, ht, hd, hr⟩ := hr.uncons
    obtain ⟨l₅, hb, hs₅⟩ := statements_run maxNesting (Nat.add_zero _) hbody hstmt hstmts hd ht
    obtain ⟨l', hend, hs'⟩ := expect_run (hd.congr_left hs₅) ht .afterBody
    refine ⟨l', ?_, hs'.trans (Reads.nil_iff.1 hr)⟩
    rw [hrun]
    exact map_run ((bind_run hb).trans (bind_run hend))

/-- What the grammar derives within the limits, the parser accepts. -/
theorem program_run {p : Program} (h : Derives us p) (hs : Shallow us) (hlow : Low p.complete)
    (hr : l.Reads (us ++ [(.eof, 0)]) l₁) : ∃ l', program l = .ok (p, l') := by
  cases h with
  | intro parts hparts =>
    obtain ⟨l₂, hfs, hr⟩ := hr.split
    obtain ⟨t, l₃, ht, hd, -⟩ := hr.uncons
    obtain ⟨l₄, hm, hs₄⟩ : ∃ l₄, many function l = .ok (parts.map (·.2), l₄) ∧ l₄.stream = l₂.stream := by
      refine many_run (Q := fun _ => True) ?_ (fun _ _ _ _ _ => trivial) ?_ ?_ hfs
      · intro part hpart l l₁ hr _
        refine function_run (hparts part hpart) (Shallow.flatten_iff.1 hs _ (List.mem_map_of_mem hpart)) ?_ hr
        exact fun x hx => hlow x (List.mem_flatMap.2 ⟨part.2, List.mem_map_of_mem hpart, hx⟩)
      · intro part hpart
        exact (hparts part hpart).tokens
      · intro l hs
        obtain ⟨l₅, hn, -⟩ := next_run (hd.congr_left hs)
        refine ⟨trivial, l₅.revert t, ?_, (next_ok hn).stream_revert⟩
        unfold function
        rw [bind_run hn, ht]
        rfl
    obtain ⟨l', hn, -⟩ := next_run (hd.congr_left hs₄)
    refine ⟨l', ?_⟩
    unfold program
    rw [bind_run hm, bind_run hn, if_pos ht]
    rfl

end ParseM

end Wordlang
