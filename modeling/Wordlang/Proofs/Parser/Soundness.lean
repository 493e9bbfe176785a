import Wordlang.Parser.Program
import Wordlang.Proofs.Parser.Tokens

/-!
# The parser accepts only what the grammar derives

Each parser that succeeds has read tokens of which the grammar derives the tree that it gives. For operators
this needs to know what stands behind an operand: no operator that should have been part of it. The parser climbs by
`BinaryOp.precedence` and the grammar lists the symbols of its levels; `Grammar.mem_operators_iff` says that these
are the same levels.
-/

namespace Wordlang

open Grammar Lexer

/-! ## The grammar -/

theorem Expr.one_le_height (e : Expr) : 1 ≤ e.height := by
  cases e <;> simp only [Expr.height] <;> omega

theorem Expr.maxHeight_le_iff {es : List Expr} {n : Nat} : Expr.maxHeight es ≤ n ↔ ∀ e ∈ es, e.height ≤ n := by
  induction es with
  | nil => simp [Expr.maxHeight]
  | cons e es ih => rw [Expr.maxHeight, Nat.max_le, ih, List.forall_mem_cons]

/-- The expression together with its height. -/
def Expr.measured (e : Expr) : Measured := ⟨e, e.height, rfl⟩

@[simp] theorem Expr.expr_measured (e : Expr) : e.measured.expr = e := rfl

@[simp] theorem Expr.height_measured (e : Expr) : e.measured.height = e.height := rfl

/-- The height that comes with an expression is no choice. -/
theorem Measured.eq_measured (e : Measured) : e = e.expr.measured := by
  obtain ⟨expr, height, rfl⟩ := e
  rfl

theorem Measured.one_le_height (e : Measured) : 1 ≤ e.height := e.height_eq ▸ e.expr.one_le_height

theorem Measured.height_lt_binary (op : BinaryOp) (left right : Measured) :
    left.height < (left.binary op right).height := by
  simp only [Measured.binary]
  omega

theorem BinaryOp.binaryOp?_token (op : BinaryOp) : op.token.binaryOp? = some op := by cases op <;> rfl

theorem BinaryOp.eq_token {kind : Token.Kind} {op : BinaryOp} (h : kind.binaryOp? = some op) :
    kind = op.token := by
  cases kind with
  | number | ident | kwIf | kwElse | kwVar | kwFunc | kwProc | kwReturn | assign | lparen | rparen | lbrace
    | rbrace | semicolon | comma | eof => cases h
  | _ => cases h; rfl

namespace Grammar

/-- The parser climbs on the levels of the grammar. -/
theorem mem_operators_iff {op : BinaryOp} {level : Nat} : op ∈ operators level ↔ op.precedence = level := by
  constructor
  · intro h
    match level with
    | 0 | 1 | 2 | 3 | 4 => revert op; decide
    | level + 5 => simp [operators, levels] at h
  · rintro rfl
    rw [operators, List.mem_filterMap]
    exact ⟨op.symbol, by cases op <;> decide, op.ofSymbol?_symbol⟩

theorem Expression.binary {depth : Nat} {us vs : List Placed} {left right : Expr} (op : BinaryOp)
    (hl : Expression op.precedence depth us left) (hr : Expression (op.precedence + 1) depth vs right) :
    Expression op.precedence depth (us ++ (op.token, depth) :: vs) (.binary op left right) :=
  .operation op (mem_operators_iff.2 rfl) hl hr

theorem separated_cons (depth : Nat) (us : List Placed) : ∀ parts : List (List Placed),
    separated depth (us :: parts) = us ++ (parts.map ((.comma, depth) :: ·)).flatten := by
  intro parts
  induction parts generalizing us with
  | nil => simp [separated, List.intercalate]
  | cons vs parts ih =>
    have hsep : separated depth (us :: vs :: parts) = us ++ [(.comma, depth)] ++ separated depth (vs :: parts) :=
      List.intercalate_cons_cons
    rw [hsep, ih vs]
    simp

/-- An expression of a level is one of every looser level. -/
theorem Expression.looser {level level' depth : Nat} {us : List Placed} {e : Expr}
    (h : Expression level depth us e) (hle : level' ≤ level) (hlt : level ≤ 5) : Expression level' depth us e := by
  induction level with
  | zero =>
    rw [Nat.le_zero.1 hle]
    exact h
  | succ level ih =>
    rcases Nat.le_succ_iff.1 hle with hle | rfl
    · exact ih (h.tighter (by omega)) hle (by omega)
    · exact h

namespace Shallow

variable {us vs : List Placed} {u : Placed}

theorem append_iff : Shallow (us ++ vs) ↔ Shallow us ∧ Shallow vs := List.forall_mem_append

theorem cons_iff : Shallow (u :: us) ↔ u.2 ≤ maxNesting ∧ Shallow us := List.forall_mem_cons

theorem nil : Shallow [] := by simp [Shallow]

theorem flatten_iff {parts : List (List Placed)} : Shallow parts.flatten ↔ ∀ us ∈ parts, Shallow us := by
  constructor
  · intro h us hus u hu
    exact h u (List.mem_flatten.2 ⟨us, hus, hu⟩)
  · intro h u hu
    obtain ⟨us, hus, hu⟩ := List.mem_flatten.1 hu
    exact h us hus u hu

theorem separated {depth : Nat} (hd : depth ≤ maxNesting) {parts : List (List Placed)}
    (h : ∀ us ∈ parts, Shallow us) : Shallow (separated depth parts) := by
  cases parts with
  | nil => exact nil
  | cons us parts =>
    rw [separated_cons]
    refine append_iff.2 ⟨h us List.mem_cons_self, flatten_iff.2 fun vs hvs => ?_⟩
    obtain ⟨ws, hws, rfl⟩ := List.mem_map.1 hvs
    exact cons_iff.2 ⟨hd, h ws (List.mem_cons_of_mem us hws)⟩

theorem condition {depth : Nat} (hd : depth ≤ maxNesting) (h : Shallow us) : Shallow (condition depth us) := by
  simp only [Grammar.condition, cons_iff, append_iff]
  exact ⟨hd, hd, h, hd, nil⟩

theorem braced {depth : Nat} {parts : List (List Placed)} (hd : depth + 1 ≤ maxNesting)
    (h : Shallow parts.flatten) : Shallow (braced depth parts) := by
  simp only [Grammar.braced, cons_iff, append_iff]
  exact ⟨hd, h, hd, nil⟩

theorem names (xs : List String) : Shallow (names xs) := by
  refine separated (Nat.zero_le _) fun us hus => ?_
  obtain ⟨x, -, rfl⟩ := List.mem_map.1 hus
  exact cons_iff.2 ⟨Nat.zero_le _, nil⟩

theorem locals {xs : List String} (h : Locals us xs) : Shallow us := by
  cases h with
  | missing => exact nil
  | declared =>
    simp only [cons_iff, append_iff]
    exact ⟨Nat.zero_le _, names xs, Nat.zero_le _, nil⟩

end Shallow

end Grammar

namespace Low

variable {xs ys : List (Nat × Expr)} {x : Nat × Expr}

theorem append_iff : Low (xs ++ ys) ↔ Low xs ∧ Low ys := List.forall_mem_append

theorem cons_iff : Low (x :: xs) ↔ x.1 + x.2.height - 1 ≤ maxNesting ∧ Low xs := List.forall_mem_cons

theorem nil : Low [] := by simp [Low]

theorem completeOf_iff {depth : Nat} {ss : List Stmt} :
    Low (Stmt.completeOf depth ss) ↔ ∀ s ∈ ss, Low (s.complete depth) := by
  induction ss with
  | nil => simp [Stmt.completeOf, nil]
  | cons s ss ih => rw [Stmt.completeOf, append_iff, ih, List.forall_mem_cons]

end Low

namespace ParseM

variable {l l' : Lexer}

/-- How a parser of an optional thing ends: behind the tokens of a thing, or where it began. -/
def Found {α : Type} (P : List Placed → α → Prop) (l : Lexer) : Option α → Lexer → Prop
  | some a, l' => ∃ us, l.Reads us l' ∧ P us a
  | none, l' => l'.stream = l.stream

/-! ## Expressions -/

/-- One round of the loop over operators: an operator that binds tightly enough, with its right operand. -/
def climb (atom : ParseM (Option Measured)) (level : Nat) (left : Measured) : ParseM (Option Measured) := do
  let t ← next
  match t.kind.binaryOp? with
  | some op =>
    if level ≤ op.precedence then
      let right ← required (.afterOperator op) (binary atom (op.precedence + 1))
      let e := Measured.binary op left right
      if maxNesting + 1 < e.height then fail .expressionTooDeep t.loc else return some e
    else
      revert t
      return none
  | none =>
    revert t
    return none

theorem binary_eq (atom : ParseM (Option Measured)) (level : Nat) : binary atom level = (do
    match ← atom with
    | none => return none
    | some e => some <$> upTo (climb atom level) (maxNesting + 1) e) := by
  rw [binary]
  rfl

/-- The parser reads expressions of a level. -/
def Sound (level depth : Nat) (parser : ParseM (Option Measured)) : Prop :=
  ∀ {l l' : Lexer} {r : Option Measured}, parser l = .ok (r, l') →
    Found (fun us e => Expression level depth us e.expr ∧ Shallow us) l r l'

/-- An operator that comes next is looser than the level. -/
def Within (level : Nat) (l : Lexer) : Prop :=
  ∀ t l' op, l.Delivers t l' → t.kind.binaryOp? = some op → op.precedence < level

/-- The same for a parser that also takes every operator of its level or of a tighter one. -/
def Greedy (level depth : Nat) (parser : ParseM (Option Measured)) : Prop :=
  ∀ l l' e, parser l = .ok (some e, l') →
    ∃ us, l.Reads us l' ∧ Expression level depth us e.expr ∧ Shallow us ∧ Within level l'

variable {atom : ParseM (Option Measured)} {level depth : Nat}

/-- The loop over operators. So far it has read an expression of the level `k`, and what comes next cannot be
an operator that is tighter. It is never cut off, because each round makes the tree higher. -/
theorem climb_greedy (hd : depth ≤ maxNesting)
    (hright : ∀ k, level < k → k ≤ 5 → Greedy k depth (binary atom k)) : ∀ (n : Nat) {k : Nat} {left e : Measured}
    {us : List Placed} {l l' : Lexer}, level ≤ k → k ≤ 5 → Expression k depth us left.expr → Within (k + 1) l →
    maxNesting + 2 ≤ n + left.height → (n = 0 → left.height ≤ maxNesting + 1) →
    upTo (climb atom level) n left l = .ok (e, l') →
    ∃ vs, l.Reads vs l' ∧ Expression level depth (us ++ vs) e.expr ∧ Shallow vs ∧ Within level l' := by
  intro n
  induction n with
  | zero =>
    intro k left e us l l' _ _ _ _ hn hheight _
    have := hheight rfl
    omega
  | succ n ih =>
    intro k left e us l l' hk hk5 hleft hwithin hn _ h
    obtain ⟨r, l₁, hstep, h⟩ := bind_ok h
    obtain ⟨t, l₂, hnext, hstep⟩ := bind_ok hstep
    have hd₁ := next_ok hnext
    have hstop : r = none → l₁.stream = l.stream → Within level l₁ →
        ∃ vs, l.Reads vs l' ∧ Expression level depth (us ++ vs) e.expr ∧ Shallow vs ∧ Within level l' := by
      rintro rfl hs hw
      cases h
      exact ⟨[], Reads.nil_iff.2 hs.symm, by simpa using hleft.looser hk hk5, Shallow.nil, hw⟩
    cases hop : t.kind.binaryOp? with
    | none =>
      simp only [hop] at hstep
      cases hstep
      refine hstop rfl hd₁.stream_revert fun t' l₃ op hd' hop' => ?_
      obtain ⟨rfl, -⟩ := (delivers_revert l₂ t).inj hd'
      rw [hop] at hop'
      cases hop'
    | some op =>
      simp only [hop] at hstep
      split at hstep
      · rename_i hlevel
        have hp5 := op.precedence_lt
        obtain ⟨right, l₃, hr, hstep⟩ := bind_ok hstep
        obtain ⟨vs, hvs, hexpr, hshallow, hw⟩ := hright _ (by omega) (by omega) _ _ _ (required_ok hr)
        split at hstep
        · cases hstep
        · rename_i hheight
          cases hstep
          have hprec : op.precedence ≤ k := Nat.lt_succ_iff.1 (hwithin t l₂ op hd₁ hop)
          have hnew : Expression op.precedence depth (us ++ (op.token, depth) :: vs) (left.binary op right).expr :=
            .binary op (hleft.looser hprec hk5) hexpr
          have hhigher := left.height_lt_binary op right
          obtain ⟨ws, hws, he, hsw, hw'⟩ := ih hlevel (by omega) hnew hw (by omega) (fun _ => by omega) h
          refine ⟨(op.token, depth) :: vs ++ ws, ?_, by simpa using he, ?_, hw'⟩
          · exact (Reads.cons hd₁ (BinaryOp.eq_token hop) hvs).append hws
          · exact Shallow.append_iff.2 ⟨Shallow.cons_iff.2 ⟨hd, hshallow⟩, hsw⟩
      · rename_i hlevel
        cases hstep
        refine hstop rfl hd₁.stream_revert fun t' l₃ op' hd' hop' => ?_
        obtain ⟨rfl, -⟩ := (delivers_revert l₂ t).inj hd'
        rw [hop] at hop'
        cases hop'
        omega

/-- An atom followed by operators. The induction is on the number of levels above. -/
theorem binary_greedy (hd : depth ≤ maxNesting) (hatom : Sound 5 depth atom) : ∀ (above : Nat) {level : Nat},
    level + above = 5 → Greedy level depth (binary atom level) := by
  intro above
  induction above using Nat.strong_induction_on with
  | _ above ih =>
    intro level hlevel l l' e h
    rw [binary_eq] at h
    obtain ⟨r, l₁, ha, h⟩ := bind_ok h
    cases r with
    | none => cases h
    | some left =>
      obtain ⟨us, hus, hexpr, hshallow⟩ := hatom ha
      obtain ⟨e', hloop, he⟩ := map_ok h
      cases he
      have hwithin : Within (5 + 1) l₁ := fun t l' op _ _ => Nat.lt_succ_of_lt op.precedence_lt
      have hheight := left.one_le_height
      obtain ⟨vs, hvs, he, hsv, hw⟩ := climb_greedy hd
        (fun k hk hk5 => ih (5 - k) (by omega) (by omega)) (maxNesting + 1) (by omega) (Nat.le_refl 5) hexpr hwithin
        (by omega) (by omega) hloop
      exact ⟨us ++ vs, hus.append hvs, he, Shallow.append_iff.2 ⟨hshallow, hsv⟩, hw⟩

theorem binary_none (hatom : Sound 5 depth atom) (h : binary atom level l = .ok (none, l')) :
    l'.stream = l.stream := by
  rw [binary_eq] at h
  obtain ⟨r, l₁, ha, h⟩ := bind_ok h
  cases r with
  | none =>
    cases h
    exact hatom ha
  | some left =>
    obtain ⟨e, -, he⟩ := map_ok h
    cases he

theorem binary_sound (hd : depth ≤ maxNesting) (hatom : Sound 5 depth atom) : Sound 0 depth (binary atom 0) := by
  intro l l' r h
  cases r with
  | none => exact binary_none hatom h
  | some e =>
    obtain ⟨us, hus, he, hs, -⟩ := binary_greedy hd hatom 5 rfl l l' e h
    exact ⟨us, hus, he, hs⟩

/-- Something behind a comma. -/
def afterComma {α : Type} (item : ParseM α) : ParseM (Option α) := do
  if ← accept .comma then some <$> item else return none

theorem many_afterComma_ok {α : Type} {item : ParseM α} {P : List Placed → α → Prop}
    (hitem : ∀ l l' a, item l = .ok (a, l') → ∃ us, l.Reads us l' ∧ P us a) {as : List α}
    (h : many (afterComma item) l = .ok (as, l')) :
    ∃ parts : List (List Placed × α), as = parts.map (·.2) ∧
      l.Reads ((parts.map (·.1)).map ((.comma, depth) :: ·)).flatten l' ∧ ∀ part ∈ parts, P part.1 part.2 := by
  have hsome : ∀ l l' a, afterComma item l = .ok (some a, l') →
      ∃ us, l.Reads us l' ∧ ∃ vs, us = (.comma, depth) :: vs ∧ P vs a := by
    intro l l' a h
    obtain ⟨b, l₁, hb, h⟩ := bind_ok h
    cases b with
    | false => cases h
    | true =>
      obtain ⟨a', hi, ha⟩ := map_ok h
      cases ha
      obtain ⟨t, ht, hd⟩ := accept_true hb
      obtain ⟨us, hus, hP⟩ := hitem _ _ _ hi
      exact ⟨_, Reads.cons hd ht hus, us, rfl, hP⟩
  have hnone : ∀ l l', afterComma item l = .ok (none, l') → l'.stream = l.stream := by
    intro l l' h
    obtain ⟨b, l₁, hb, h⟩ := bind_ok h
    cases b with
    | false => cases h; exact (accept_false hb).2
    | true =>
      obtain ⟨a', -, ha⟩ := map_ok h
      cases ha
  obtain ⟨parts, rfl, hr, hparts⟩ := many_ok hsome hnone h
  choose! vs hvs hP using hparts
  refine ⟨parts.map fun part => (vs part, part.2), by simp, ?_, ?_⟩
  · rw [List.map_map, List.map_map]
    rwa [List.map_congr_left hvs] at hr
  · intro part hpart
    obtain ⟨part', hmem, rfl⟩ := List.mem_map.1 hpart
    exact hP part' hmem

theorem arguments_sound {argument : ParseM (Option Measured)} {callee : String} {es : List Measured}
    (hd : depth ≤ maxNesting) (harg : Sound 0 depth argument) (h : arguments callee argument l = .ok (es, l')) :
    ∃ args : List (List Placed × Measured), es = args.map (·.2) ∧
      (∀ arg ∈ args, Expression 0 depth arg.1 arg.2.expr) ∧
      l.Reads (separated depth (args.map (·.1)) ++ [(.rparen, depth)]) l' ∧
      Shallow (separated depth (args.map (·.1)) ++ [(.rparen, depth)]) := by
  have hparen : Shallow [(.rparen, depth)] := Shallow.cons_iff.2 ⟨hd, Shallow.nil⟩
  obtain ⟨b, l₁, hb, h⟩ := bind_ok h
  cases b with
  | true =>
    cases h
    obtain ⟨t, ht, hdel⟩ := accept_true hb
    exact ⟨[], rfl, by simp, Reads.single depth hdel ht, hparen⟩
  | false =>
    obtain ⟨first, l₂, hfirst, h⟩ := bind_ok h
    obtain ⟨more, l₃, hmore, h⟩ := bind_ok h
    obtain ⟨t, l₄, hclose, h⟩ := bind_ok h
    cases h
    obtain ⟨us, hus, hexpr, hshallow⟩ := harg (required_ok hfirst)
    obtain ⟨parts, rfl, hparts, hP⟩ := many_afterComma_ok
      (P := fun us (e : Measured) => Expression 0 depth us e.expr ∧ Shallow us)
      (fun l l' e h => harg (required_ok h)) hmore
    obtain ⟨ht, hdel⟩ := expect_ok hclose
    refine ⟨(us, first) :: parts, rfl, ?_, ?_, ?_⟩
    · rintro arg (_ | ⟨_, harg⟩)
      · exact hexpr
      · exact (hP arg harg).1
    · rw [List.map_cons, separated_cons]
      exact ((hus.congr_left (accept_false hb).2.symm).append hparts).append (Reads.single depth hdel ht)
    · refine Shallow.append_iff.2 ⟨Shallow.separated hd ?_, hparen⟩
      rintro vs (_ | ⟨_, hvs⟩)
      · exact hshallow
      · obtain ⟨part, hpart, rfl⟩ := List.mem_map.1 hvs
        exact (hP part hpart).2

section Productions

variable {t u : Token} {l₁ l₂ : Lexer} {e : Measured}

/-- A call, behind its name and the parenthesis. -/
theorem call_sound {callee : String} {args : List Measured} (hd : depth + 1 ≤ maxNesting)
    (hatom : Sound 5 (depth + 1) atom) (hdel : l.Delivers t l₁) (ht : t.kind = .ident callee)
    (hdel' : l₁.Delivers u l₂) (hu : u.kind = .lparen)
    (h : arguments callee (binary atom 0) l₂ = .ok (args, l')) :
    ∃ us, l.Reads us l' ∧ Expression 5 depth us (Measured.call callee args).expr ∧ Shallow us := by
  obtain ⟨parts, rfl, hexprs, hr, hs⟩ := arguments_sound hd (binary_sound hd hatom) h
  have hcall := Expression.call callee (parts.map fun part => (part.1, part.2.expr)) (List.forall_mem_map.2 hexprs)
  simp only [List.map_map, Function.comp_def] at hcall
  have hexpr : (Measured.call callee (parts.map (·.2))).expr = .call callee (parts.map fun part => part.2.expr) := by
    simp only [Measured.call, List.map_map, Function.comp_def]
  exact ⟨_, Reads.cons hdel ht (Reads.cons hdel' hu hr), hexpr ▸ hcall,
    Shallow.cons_iff.2 ⟨Nat.le_of_succ_le hd, Shallow.cons_iff.2 ⟨hd, hs⟩⟩⟩

/-- An expression in parentheses, behind the first of them. -/
theorem group_sound (hd : depth + 1 ≤ maxNesting) (hatom : Sound 5 (depth + 1) atom) (hdel : l.Delivers t l₁)
    (ht : t.kind = .lparen) (he : required .afterParen (binary atom 0) l₁ = .ok (e, l₂))
    (hclose : expect .rparen .afterGroup l₂ = .ok (u, l')) :
    ∃ us, l.Reads us l' ∧ Expression 5 depth us e.expr ∧ Shallow us := by
  obtain ⟨us, hus, hexpr, hs⟩ := binary_sound hd hatom (required_ok he)
  obtain ⟨hu, hdel'⟩ := expect_ok hclose
  refine ⟨_, Reads.cons hdel ht (hus.append (Reads.single _ hdel' hu)), hexpr.group, ?_⟩
  exact Shallow.cons_iff.2 ⟨hd, Shallow.append_iff.2 ⟨hs, Shallow.cons_iff.2 ⟨hd, Shallow.nil⟩⟩⟩

theorem signed_sound (op : UnaryOp) (hd : depth ≤ maxNesting) (hatom : Sound 5 (depth + 1) atom)
    (hdel : l.Delivers t l₁) (ht : t.kind = op.token) (h : signed op atom l₁ = .ok (e, l')) :
    ∃ us, l.Reads us l' ∧ Expression 5 depth us e.expr ∧ Shallow us := by
  obtain ⟨operand, hop, rfl⟩ := map_ok h
  obtain ⟨us, hus, hexpr, hs⟩ := hatom (required_ok hop)
  exact ⟨_, Reads.cons hdel ht hus, hexpr.sign op, Shallow.cons_iff.2 ⟨hd, hs⟩⟩

end Productions

theorem atomWith_sound {inner : Option (ParseM (Option Measured))} (hd : depth ≤ maxNesting)
    (hinner : ∀ p ∈ inner, depth + 1 ≤ maxNesting ∧ Sound 5 (depth + 1) p) : Sound 5 depth (atomWith inner) := by
  have hsingle : ∀ kind, Shallow [(kind, depth)] := fun kind => Shallow.cons_iff.2 ⟨hd, Shallow.nil⟩
  intro l l' r h
  obtain ⟨t, l₁, hnext, h⟩ := bind_ok h
  have hdel := next_ok hnext
  cases hk : t.kind with
  | number value =>
    simp only [hk] at h
    cases h
    exact ⟨_, Reads.single depth hdel hk, .number depth value, hsingle _⟩
  | ident name =>
    simp only [hk] at h
    obtain ⟨b, l₂, hb, h⟩ := bind_ok h
    cases b with
    | false =>
      cases h
      exact ⟨_, (Reads.single depth hdel hk).congr (accept_false hb).2.symm, .name depth name, hsingle _⟩
    | true =>
      obtain ⟨p, l₃, hp, h⟩ := bind_ok h
      obtain ⟨args, l₄, hargs, h⟩ := bind_ok h
      cases h
      obtain ⟨hp', rfl⟩ := enter_ok hp
      obtain ⟨u, hu, hdel'⟩ := accept_true hb
      exact call_sound (hinner p hp').1 (hinner p hp').2 hdel hk hdel' hu hargs
  | lparen =>
    simp only [hk] at h
    obtain ⟨p, l₂, hp, h⟩ := bind_ok h
    obtain ⟨e, l₃, he, h⟩ := bind_ok h
    obtain ⟨u, l₄, hclose, h⟩ := bind_ok h
    cases h
    obtain ⟨hp', rfl⟩ := enter_ok hp
    exact group_sound (hinner p hp').1 (hinner p hp').2 hdel hk he hclose
  | plus =>
    simp only [hk] at h
    obtain ⟨p, l₂, hp, h⟩ := bind_ok h
    obtain ⟨e, he, rfl⟩ := map_ok h
    obtain ⟨hp', rfl⟩ := enter_ok hp
    exact signed_sound .identity hd (hinner p hp').2 hdel hk he
  | minus =>
    simp only [hk] at h
    obtain ⟨p, l₂, hp, h⟩ := bind_ok h
    obtain ⟨e, he, rfl⟩ := map_ok h
    obtain ⟨hp', rfl⟩ := enter_ok hp
    exact signed_sound .negate hd (hinner p hp').2 hdel hk he
  | _ =>
    simp only [hk] at h
    cases h
    exact hdel.stream_revert

theorem atom_sound : ∀ (room : Nat) {depth : Nat}, room + depth = maxNesting →
    Sound 5 depth (ParseM.atom room) := by
  intro room
  induction room with
  | zero =>
    intro depth h
    exact atomWith_sound (by omega) (by simp)
  | succ room ih =>
    intro depth h
    refine atomWith_sound (by omega) fun p hp => ?_
    cases hp
    exact ⟨by omega, ih (by omega)⟩

theorem expression_sound {room : Nat} {r : Option Expr} (hroom : room + depth = maxNesting)
    (h : expression room l = .ok (r, l')) :
    Found (fun us e => Expression 0 depth us e ∧ Shallow us ∧ depth + e.height - 1 ≤ maxNesting) l r l' := by
  obtain ⟨t, l₁, hpeek, h⟩ := bind_ok h
  obtain ⟨r', l₂, hbinary, h⟩ := bind_ok h
  have hsound := binary_sound (by omega) (atom_sound room hroom) hbinary
  have hs₁ := (peek_ok hpeek).2
  cases r' with
  | none =>
    cases h
    exact hsound.trans hs₁
  | some e =>
    obtain ⟨us, hus, hexpr, hs⟩ := hsound
    simp only at h
    split at h
    · cases h
    · rename_i hheight
      cases h
      rw [e.height_eq] at hheight
      exact ⟨us, hus.congr_left hs₁.symm, hexpr, hs, by omega⟩

/-! ## Statements -/

/-- The name in front of `=`, with the `=`. -/
theorem assignee_sound {r : Option String} (depth : Nat) (h : assignee l = .ok (r, l')) :
    Found (fun us target => us = [(.ident target, depth), (.assign, depth)]) l r l' := by
  obtain ⟨t, l₁, hnext, h⟩ := bind_ok h
  cases hk : t.kind with
  | ident name =>
    simp only [hk] at h
    obtain ⟨u, l₂, hnext', h⟩ := bind_ok h
    split at h
    · rename_i hu
      cases h
      exact ⟨_, Reads.cons (next_ok hnext) hk (Reads.single depth (next_ok hnext') hu), rfl⟩
    · cases h
      exact (delivers_revert _ t).trans ((congrArg _ (next_ok hnext').stream_revert).trans (next_ok hnext).symm)
  | _ =>
    simp only [hk] at h
    cases h
    exact (next_ok hnext).stream_revert

/-- What is read of a statement inside `depth` blocks. -/
def ReadStmt (depth : Nat) (us : List Placed) (s : Stmt) : Prop :=
  Statement depth us s ∧ Shallow us ∧ Low (s.complete depth)

/-- The parser reads statements inside `depth` blocks. -/
def SoundStmt (depth : Nat) (parser : ParseM (Option Stmt)) : Prop :=
  ∀ {l l' : Lexer} {r : Option Stmt}, parser l = .ok (r, l') → Found (ReadStmt depth) l r l'

theorem statements_sound {parser : ParseM (Option Stmt)} {ss : List Stmt} (hparser : SoundStmt depth parser)
    (h : many parser l = .ok (ss, l')) :
    ∃ body : List (List Placed × Stmt), ss = body.map (·.2) ∧ (∀ s ∈ body, Statement depth s.1 s.2) ∧
      l.Reads (body.map (·.1)).flatten l' ∧ Shallow (body.map (·.1)).flatten ∧ Low (Stmt.completeOf depth ss) := by
  obtain ⟨body, rfl, hr, hbody⟩ := many_ok (P := ReadStmt depth) (fun _ _ _ => hparser) (fun _ _ => hparser) h
  refine ⟨body, rfl, fun s hs => (hbody s hs).1, hr, Shallow.flatten_iff.2 ?_, Low.completeOf_iff.2 ?_⟩
  · intro us hus
    obtain ⟨s, hs, rfl⟩ := List.mem_map.1 hus
    exact (hbody s hs).2.1
  · intro s hs
    obtain ⟨part, hpart, rfl⟩ := List.mem_map.1 hs
    exact (hbody part hpart).2.2

variable {inner : Option (ParseM (Option Stmt))} {room : Nat}

theorem block_sound {place : ParseError.Place} {ss : List Stmt}
    (hinner : ∀ p ∈ inner, depth + 1 ≤ maxNesting ∧ SoundStmt (depth + 1) p)
    (h : block place inner l = .ok (ss, l')) :
    ∃ body : List (List Placed × Stmt), ss = body.map (·.2) ∧ (∀ s ∈ body, Statement (depth + 1) s.1 s.2) ∧
      l.Reads (braced depth (body.map (·.1))) l' ∧ Shallow (braced depth (body.map (·.1))) ∧
      Low (Stmt.completeOf (depth + 1) ss) := by
  obtain ⟨t, l₁, hopen, h⟩ := bind_ok h
  obtain ⟨p, l₂, hp, h⟩ := bind_ok h
  obtain ⟨ss', l₃, hmany, h⟩ := bind_ok h
  obtain ⟨u, l₄, hclose, h⟩ := bind_ok h
  cases h
  obtain ⟨hp', rfl⟩ := enter_ok hp
  obtain ⟨hd, hsound⟩ := hinner p hp'
  obtain ⟨ht, hdel⟩ := expect_ok hopen
  obtain ⟨hu, hdel'⟩ := expect_ok hclose
  obtain ⟨body, hss, hbody, hr, hs, hlow⟩ := statements_sound hsound hmany
  exact ⟨body, hss, hbody, Reads.cons hdel ht (hr.append (Reads.single _ hdel' hu)), .braced hd hs, hlow⟩

theorem conditional_sound {t : Token} {l₁ : Lexer} {s : Stmt} (hroom : room + depth = maxNesting)
    (hinner : ∀ p ∈ inner, depth + 1 ≤ maxNesting ∧ SoundStmt (depth + 1) p) (hdel : l.Delivers t l₁)
    (ht : t.kind = .kwIf) (h : conditional room inner l₁ = .ok (s, l')) :
    ∃ us, l.Reads us l' ∧ ReadStmt depth us s := by
  have hd : depth ≤ maxNesting := by omega
  obtain ⟨u, l₂, hopen, h⟩ := bind_ok h
  obtain ⟨test, l₃, htest, h⟩ := bind_ok h
  obtain ⟨v, l₄, hclose, h⟩ := bind_ok h
  obtain ⟨yes, l₅, hyes, h⟩ := bind_ok h
  obtain ⟨b, l₆, hb, h⟩ := bind_ok h
  obtain ⟨hu, hdel₂⟩ := expect_ok hopen
  obtain ⟨hv, hdel₄⟩ := expect_ok hclose
  obtain ⟨us, hus, hexpr, hs, hheight⟩ := expression_sound hroom (required_ok htest)
  obtain ⟨body, rfl, hbody, hr, hsb, hlow⟩ := block_sound hinner hyes
  have hcond : l.Reads (condition depth us) l₄ :=
    Reads.cons hdel ht (Reads.cons hdel₂ hu (hus.append (Reads.single depth hdel₄ hv)))
  have hscond : Shallow (condition depth us) := .condition hd hs
  cases b with
  | false =>
    cases h
    refine ⟨_, (hcond.append hr).congr (accept_false hb).2.symm, .ifThen body hexpr hbody,
      Shallow.append_iff.2 ⟨hscond, hsb⟩, ?_⟩
    rw [Stmt.complete]
    exact Low.cons_iff.2 ⟨hheight, hlow⟩
  | true =>
    obtain ⟨no, l₇, hno, h⟩ := bind_ok h
    cases h
    obtain ⟨w, hw, hdel₆⟩ := accept_true hb
    obtain ⟨body', rfl, hbody', hr', hsb', hlow'⟩ := block_sound hinner hno
    refine ⟨_, (hcond.append hr).append (Reads.cons hdel₆ hw hr'), .ifElse body body' hexpr hbody hbody',
      Shallow.append_iff.2 ⟨Shallow.append_iff.2 ⟨hscond, hsb⟩, Shallow.cons_iff.2 ⟨hd, hsb'⟩⟩, ?_⟩
    rw [Stmt.complete]
    exact Low.cons_iff.2 ⟨hheight, Low.append_iff.2 ⟨hlow, hlow'⟩⟩

/-- An expression with the semicolon behind it. -/
theorem terminated_sound {place : ParseError.Place} {e : Expr} {t : Token} {l₁ : Lexer}
    (hroom : room + depth = maxNesting) (he : expression room l = .ok (some e, l₁))
    (ht : expect .semicolon place l₁ = .ok (t, l')) :
    ∃ us, l.Reads (us ++ [(.semicolon, depth)]) l' ∧ Expression 0 depth us e ∧
      Shallow (us ++ [(.semicolon, depth)]) ∧ Low [(depth, e)] := by
  obtain ⟨us, hus, hexpr, hs, hheight⟩ := expression_sound hroom he
  obtain ⟨ht, hdel⟩ := expect_ok ht
  exact ⟨us, hus.append (Reads.single depth hdel ht), hexpr,
    Shallow.append_iff.2 ⟨hs, Shallow.cons_iff.2 ⟨by omega, Shallow.nil⟩⟩, Low.cons_iff.2 ⟨hheight, Low.nil⟩⟩

theorem return_sound {value : Option Expr} {place : ParseError.Place} {t u : Token} {l₁ l₂ : Lexer}
    (hroom : room + depth = maxNesting) (hdel : l.Delivers t l₁) (ht : t.kind = .kwReturn)
    (hvalue : expression room l₁ = .ok (value, l₂)) (hsemi : expect .semicolon place l₂ = .ok (u, l')) :
    ∃ us, l.Reads us l' ∧ ReadStmt depth us (.ret value) := by
  have hd : depth ≤ maxNesting := by omega
  cases value with
  | none =>
    obtain ⟨hu, hdel'⟩ := expect_ok hsemi
    have hdel₁ := hdel'.congr_left (expression_sound hroom hvalue).symm
    refine ⟨_, Reads.cons hdel ht (Reads.single depth hdel₁ hu), .leave depth, ?_, Low.nil⟩
    exact Shallow.cons_iff.2 ⟨hd, Shallow.cons_iff.2 ⟨hd, Shallow.nil⟩⟩
  | some e =>
    obtain ⟨us, hus, hexpr, hs, hlow⟩ := terminated_sound hroom hvalue hsemi
    exact ⟨_, Reads.cons hdel ht hus, .leaveWith hexpr, Shallow.cons_iff.2 ⟨hd, hs⟩, hlow⟩

theorem assignment_sound {target : String} {e : Expr} {place : ParseError.Place} {u : Token} {l₁ l₂ : Lexer}
    (hroom : room + depth = maxNesting) (htarget : l.Reads [(.ident target, depth), (.assign, depth)] l₁)
    (he : expression room l₁ = .ok (some e, l₂)) (hsemi : expect .semicolon place l₂ = .ok (u, l')) :
    ∃ us, l.Reads us l' ∧ ReadStmt depth us (.set target e) := by
  have hd : depth ≤ maxNesting := by omega
  obtain ⟨us, hus, hexpr, hs, hlow⟩ := terminated_sound hroom he hsemi
  refine ⟨_, htarget.append hus, .set target hexpr, ?_, hlow⟩
  exact Shallow.cons_iff.2 ⟨hd, Shallow.cons_iff.2 ⟨hd, hs⟩⟩

/-- The alternatives are tried in turn, and one that finds nothing leaves the text as it was. -/
theorem statementWith_sound (hroom : room + depth = maxNesting)
    (hinner : ∀ p ∈ inner, depth + 1 ≤ maxNesting ∧ SoundStmt (depth + 1) p) :
    SoundStmt depth (statementWith room inner) := by
  intro l l' r h
  obtain ⟨b, l₁, hb, h⟩ := bind_ok h
  cases b with
  | true =>
    obtain ⟨value, l₂, hvalue, h⟩ := bind_ok h
    obtain ⟨u, l₃, hsemi, h⟩ := bind_ok h
    cases h
    obtain ⟨t, ht, hdel⟩ := accept_true hb
    exact return_sound hroom hdel ht hvalue hsemi
  | false =>
    have hs₁ := (accept_false hb).2
    obtain ⟨r, l₂, hr, h⟩ := bind_ok h
    have hassignee := assignee_sound depth hr
    cases r with
    | some target =>
      obtain ⟨e, l₃, he, h⟩ := bind_ok h
      obtain ⟨u, l₄, hsemi, h⟩ := bind_ok h
      cases h
      obtain ⟨_, htarget, rfl⟩ := hassignee
      exact assignment_sound hroom (htarget.congr_left hs₁.symm) (required_ok he) hsemi
    | none =>
      have hs₂ := hassignee.trans hs₁
      obtain ⟨b, l₃, hb, h⟩ := bind_ok h
      cases b with
      | true =>
        obtain ⟨s, hcond, rfl⟩ := map_ok h
        obtain ⟨t, ht, hdel⟩ := accept_true hb
        exact conditional_sound hroom hinner (hdel.congr_left hs₂.symm) ht hcond
      | false =>
        have hs₃ := (accept_false hb).2.trans hs₂
        obtain ⟨t, l₄, hpeek, h⟩ := bind_ok h
        have hs₄ := (peek_ok hpeek).2.trans hs₃
        split at h
        · cases h
        · obtain ⟨r, l₅, hr, h⟩ := bind_ok h
          cases r with
          | none =>
            cases h
            exact (expression_sound hroom hr).trans hs₄
          | some e =>
            obtain ⟨u, l₆, hsemi, h⟩ := bind_ok h
            cases h
            obtain ⟨us, hus, hexpr, hs, hlow⟩ := terminated_sound hroom hr hsemi
            exact ⟨_, hus.congr_left hs₄.symm, .expr hexpr, hs, hlow⟩

theorem statement_sound : ∀ (room : Nat) {depth : Nat}, room + depth = maxNesting →
    SoundStmt depth (statement room) := by
  intro room
  induction room with
  | zero =>
    intro depth h
    exact statementWith_sound h (by simp)
  | succ room ih =>
    intro depth h
    refine statementWith_sound h fun p hp => ?_
    cases hp
    exact ⟨by omega, ih (by omega)⟩

/-! ## Programs -/

theorem names_sound {list : ParseError.NameList} {xs : List String} (h : names list l = .ok (xs, l')) :
    l.Reads (Grammar.names xs) l' := by
  obtain ⟨t, l₁, hnext, h⟩ := bind_ok h
  cases hk : t.kind with
  | ident first =>
    simp only [hk] at h
    obtain ⟨more, l₂, hmore, h⟩ := bind_ok h
    cases h
    have hitem : ∀ l l' x, identifier (.afterNameComma list) l = .ok (x, l') →
        ∃ us, l.Reads us l' ∧ us = [(.ident x, 0)] := by
      intro l l' x h
      obtain ⟨u, hu, hdel⟩ := identifier_ok h
      exact ⟨_, Reads.single 0 hdel hu, rfl⟩
    obtain ⟨parts, rfl, hr, hparts⟩ := many_afterComma_ok hitem hmore
    have hmap : parts.map (·.1) = (parts.map (·.2)).map fun x => [(.ident x, 0)] := by
      rw [List.map_map]
      exact List.map_congr_left hparts
    rw [Grammar.names, List.map_cons, separated_cons, ← hmap]
    exact Reads.cons (next_ok hnext) hk hr
  | _ =>
    simp only [hk] at h
    cases h
    exact Reads.nil_iff.2 (next_ok hnext).stream_revert.symm

theorem localNames_sound {xs : List String} (h : localNames l = .ok (xs, l')) :
    ∃ ls, l.Reads ls l' ∧ Locals ls xs := by
  obtain ⟨b, l₁, hb, h⟩ := bind_ok h
  cases b with
  | true =>
    obtain ⟨ys, l₂, hnames, h⟩ := bind_ok h
    obtain ⟨u, l₃, hsemi, h⟩ := bind_ok h
    cases h
    obtain ⟨t, ht, hdel⟩ := accept_true hb
    obtain ⟨hu, hdel'⟩ := expect_ok hsemi
    exact ⟨_, Reads.cons hdel ht ((names_sound hnames).append (Reads.single 0 hdel' hu)), .declared xs⟩
  | false =>
    cases h
    exact ⟨[], Reads.nil_iff.2 (accept_false hb).2.symm, .missing⟩

/-- What is read of a function. -/
def ReadFunction (us : List Placed) (f : Function) : Prop :=
  Declaration us f ∧ Shallow us ∧ Low (Stmt.completeOf 0 f.body)

theorem declaration_sound (kind : FunctionKind) {t : Token} {l₁ : Lexer} {f : Function} (hdel : l.Delivers t l₁)
    (ht : t.kind = kind.token) (h : declaration kind l₁ = .ok (f, l')) :
    ∃ us, l.Reads us l' ∧ ReadFunction us f := by
  obtain ⟨name, l₂, hname, h⟩ := bind_ok h
  obtain ⟨t₂, l₃, hopen, h⟩ := bind_ok h
  obtain ⟨params, l₄, hparams, h⟩ := bind_ok h
  obtain ⟨t₄, l₅, hclose, h⟩ := bind_ok h
  obtain ⟨t₅, l₆, hbrace, h⟩ := bind_ok h
  obtain ⟨locals, l₇, hlocals, h⟩ := bind_ok h
  obtain ⟨ss, l₈, hbody, h⟩ := bind_ok h
  obtain ⟨t₈, l₉, hend, h⟩ := bind_ok h
  cases h
  obtain ⟨t₁, ht₁, hd₁⟩ := identifier_ok hname
  obtain ⟨ht₂, hd₂⟩ := expect_ok hopen
  obtain ⟨ht₄, hd₄⟩ := expect_ok hclose
  obtain ⟨ht₅, hd₅⟩ := expect_ok hbrace
  obtain ⟨ht₈, hd₈⟩ := expect_ok hend
  obtain ⟨ls, hls, hl⟩ := localNames_sound hlocals
  obtain ⟨body, rfl, hstmts, hr, hs, hlow⟩ := statements_sound (statement_sound maxNesting (Nat.add_zero _)) hbody
  refine ⟨_, ?_, .intro name params locals body kind hl hstmts, ?_, hlow⟩
  · exact Reads.cons hdel ht (Reads.cons hd₁ ht₁ (Reads.cons hd₂ ht₂ ((names_sound hparams).append
      (Reads.cons hd₄ ht₄ (Reads.cons hd₅ ht₅ (hls.append (hr.append (Reads.single 0 hd₈ ht₈))))))))
  · simp only [Shallow.cons_iff, Shallow.append_iff, Nat.zero_le, true_and]
    exact ⟨.names params, .locals hl, hs, Shallow.nil⟩

theorem function_sound {r : Option Function} (h : function l = .ok (r, l')) : Found ReadFunction l r l' := by
  obtain ⟨t, l₁, hnext, h⟩ := bind_ok h
  cases hk : t.kind with
  | kwFunc =>
    simp only [hk] at h
    obtain ⟨f, hf, rfl⟩ := map_ok h
    exact declaration_sound .func (next_ok hnext) hk hf
  | kwProc =>
    simp only [hk] at h
    obtain ⟨f, hf, rfl⟩ := map_ok h
    exact declaration_sound .proc (next_ok hnext) hk hf
  | _ =>
    simp only [hk] at h
    cases h
    exact (next_ok hnext).stream_revert

/-- What the parser accepts, the grammar derives, and it keeps to the limits. -/
theorem program_sound {p : Program} (h : program l = .ok (p, l')) :
    ∃ us, l.Reads (us ++ [(.eof, 0)]) l' ∧ Derives us p ∧ Shallow us ∧ Low p.complete := by
  obtain ⟨fs, l₁, hmany, h⟩ := bind_ok h
  obtain ⟨t, l₂, hnext, h⟩ := bind_ok h
  split at h
  · rename_i ht
    cases h
    obtain ⟨parts, rfl, hr, hparts⟩ := many_ok (P := ReadFunction) (fun _ _ _ => function_sound)
      (fun _ _ => function_sound) hmany
    refine ⟨_, hr.append (Reads.single 0 (next_ok hnext) ht), .intro parts fun f hf => (hparts f hf).1, ?_, ?_⟩
    · refine Shallow.flatten_iff.2 fun us hus => ?_
      obtain ⟨part, hpart, rfl⟩ := List.mem_map.1 hus
      exact (hparts part hpart).2.1
    · intro x hx
      obtain ⟨f, hf, hx⟩ := List.mem_flatMap.1 hx
      obtain ⟨part, hpart, rfl⟩ := List.mem_map.1 hf
      exact (hparts part hpart).2.2 x hx
  · cases h

end ParseM

end Wordlang
