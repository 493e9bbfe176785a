import Wordlang.Proofs.Parser.Acceptance
import Wordlang.Proofs.Printer.Spelling

/-!
# Texts within the limit on nesting

The text of a tree is parsed if it keeps to the limit, and otherwise the parser stops at the first construct that
is one too many. Main statement: `Program.parse_text`.
-/

namespace Wordlang

open Grammar Lexer

/-! ## Which texts keep to the limit -/

theorem Expr.nestingOf_le_iff {es : List Expr} {n : Nat} : Expr.nestingOf es ≤ n ↔ ∀ e ∈ es, e.nesting ≤ n := by
  induction es with
  | nil => simp [Expr.nestingOf]
  | cons e es ih => rw [Expr.nestingOf, Nat.max_le, ih, List.forall_mem_cons]

/-- A tree is at most one level higher than the constructs in its text nest. -/
theorem Expr.height_unsigned_le (e : Expr) : e.unsigned.height ≤ e.nesting + 1 := by
  induction e using Expr.induct with
  | num value =>
    rw [Expr.unsigned, Expr.nesting]
    split <;> simp [Expr.height]
  | var => simp [Expr.unsigned, Expr.height]
  | unary op e ih =>
    simp only [Expr.unsigned, Expr.height, Expr.nesting]
    omega
  | binary op a b iha ihb =>
    simp only [Expr.unsigned, Expr.height, Expr.nesting]
    omega
  | call callee args ih =>
    simp only [Expr.unsigned, Expr.height, Expr.nesting, Expr.unsignedAll_eq]
    have hargs : Expr.maxHeight (args.map Expr.unsigned) ≤ Expr.nestingOf args + 1 := by
      refine Expr.maxHeight_le_iff.2 fun e' he' => ?_
      obtain ⟨e, he, rfl⟩ := List.mem_map.1 he'
      exact Nat.le_trans (ih e he) (Nat.succ_le_succ (Expr.nestingOf_le_iff.1 (Nat.le_refl _) e he))
    omega

theorem Expr.shallow_tokens {depth : Nat} {e : Expr} (h : depth + e.nesting ≤ maxNesting) :
    Shallow (e.tokens depth) := by
  induction e using Expr.induct generalizing depth with
  | num value =>
    rw [Expr.nesting] at h
    rw [Expr.tokens]
    split at h
    · rename_i hneg
      simp only [if_pos hneg, Shallow.cons_iff, Shallow.nil, and_true]
      omega
    · rename_i hneg
      simp only [if_neg hneg, Shallow.cons_iff, Shallow.nil, and_true]
      exact h
  | var =>
    simp only [Expr.tokens, Shallow.cons_iff, Shallow.nil, and_true]
    exact h
  | unary op e ih =>
    rw [Expr.nesting] at h
    exact Shallow.cons_iff.2 ⟨by omega, ih (by omega)⟩
  | binary op a b iha ihb =>
    rw [Expr.nesting] at h
    simp only [Expr.tokens, Shallow.cons_iff, Shallow.append_iff, Shallow.nil, and_true]
    exact ⟨by omega, ⟨iha (by omega), by omega, ihb (by omega)⟩, by omega⟩
  | call callee args ih =>
    rw [Expr.nesting] at h
    simp only [Expr.tokens, Expr.tokensOf_eq, Shallow.cons_iff, Shallow.append_iff, Shallow.nil, and_true]
    refine ⟨by omega, by omega, Shallow.separated (by omega) fun us hus => ?_, by omega⟩
    obtain ⟨e, he, rfl⟩ := List.mem_map.1 hus
    have hle := Expr.nestingOf_le_iff.1 (Nat.le_refl _) e he
    exact ih e he (by omega)

mutual

/-- The blocks in a statement inside `depth` blocks; each is given by the number of blocks that its statements
lie in. -/
def Stmt.blocks (depth : Nat) : Stmt → List Nat
  | .ifThen _ body => (depth + 1) :: Stmt.blocksOf (depth + 1) body
  | .ifElse _ yes no =>
    (depth + 1) :: (Stmt.blocksOf (depth + 1) yes ++ (depth + 1) :: Stmt.blocksOf (depth + 1) no)
  | _ => []

def Stmt.blocksOf (depth : Nat) : List Stmt → List Nat
  | [] => []
  | s :: ss => Stmt.blocks depth s ++ Stmt.blocksOf depth ss

end

theorem Stmt.mem_blocksOf {depth d : Nat} {ss : List Stmt} :
    d ∈ Stmt.blocksOf depth ss ↔ ∃ s ∈ ss, d ∈ s.blocks depth := by
  induction ss with
  | nil => simp [Stmt.blocksOf]
  | cons s ss ih => simp [Stmt.blocksOf, ih]

/-- The blocks of a program. -/
def Program.blocks (p : Program) : List Nat := p.flatMap fun f => Stmt.blocksOf 0 f.body

/-- The text of a statement inside `depth` blocks keeps to the limit. -/
def Stmt.Fits (depth : Nat) (s : Stmt) : Prop :=
  (∀ x ∈ s.complete depth, x.1 + x.2.nesting ≤ maxNesting) ∧ ∀ d ∈ s.blocks depth, d ≤ maxNesting

/-- The text of a program keeps to the limit. -/
def Program.Fits (p : Program) : Prop :=
  (∀ x ∈ p.complete, x.1 + x.2.nesting ≤ maxNesting) ∧ ∀ d ∈ p.blocks, d ≤ maxNesting

theorem Stmt.fits_all_iff {depth : Nat} {ss : List Stmt} :
    ((∀ x ∈ Stmt.completeOf depth ss, x.1 + x.2.nesting ≤ maxNesting) ∧
      ∀ d ∈ Stmt.blocksOf depth ss, d ≤ maxNesting) ↔ ∀ s ∈ ss, s.Fits depth := by
  induction ss with
  | nil => simp [Stmt.completeOf, Stmt.blocksOf]
  | cons s ss ih =>
    rw [Stmt.completeOf, Stmt.blocksOf, List.forall_mem_append, List.forall_mem_append, List.forall_mem_cons, ← ih,
      and_and_and_comm]
    rfl

theorem Stmt.fits_ifThen {depth : Nat} {test : Expr} {body : List Stmt} : (Stmt.ifThen test body).Fits depth ↔
    depth + test.nesting ≤ maxNesting ∧ depth + 1 ≤ maxNesting ∧ ∀ s ∈ body, s.Fits (depth + 1) := by
  rw [← Stmt.fits_all_iff, Stmt.Fits, Stmt.complete, Stmt.blocks, List.forall_mem_cons, List.forall_mem_cons]
  tauto

theorem Stmt.fits_ifElse {depth : Nat} {test : Expr} {yes no : List Stmt} :
    (Stmt.ifElse test yes no).Fits depth ↔ depth + test.nesting ≤ maxNesting ∧ depth + 1 ≤ maxNesting ∧
      (∀ s ∈ yes, s.Fits (depth + 1)) ∧ ∀ s ∈ no, s.Fits (depth + 1) := by
  rw [← Stmt.fits_all_iff, ← Stmt.fits_all_iff, Stmt.Fits, Stmt.complete, Stmt.blocks]
  simp only [List.forall_mem_cons, List.forall_mem_append]
  tauto

theorem Program.fits_iff {p : Program} : p.Fits ↔ ∀ f ∈ p, ∀ s ∈ f.body, s.Fits 0 := by
  simp only [Program.Fits, Program.complete, Program.blocks, ← Stmt.fits_all_iff, List.mem_flatMap]
  constructor
  · intro h f hf
    exact ⟨fun x hx => h.1 x ⟨f, hf, hx⟩, fun d hd => h.2 d ⟨f, hf, hd⟩⟩
  · intro h
    refine ⟨?_, ?_⟩
    · rintro x ⟨f, hf, hx⟩
      exact (h f hf).1 x hx
    · rintro d ⟨f, hf, hd⟩
      exact (h f hf).2 d hd

/-! ## Within the limit -/

theorem Stmt.shallow_tokens {depth : Nat} {s : Stmt} (hd : depth ≤ maxNesting) (h : s.Fits depth) :
    Shallow (s.tokens depth) := by
  have hbody : ∀ {ss : List Stmt} {depth : Nat}, (∀ s ∈ ss, Shallow (s.tokens depth)) →
      Shallow (Stmt.tokensOf depth ss).flatten := by
    intro ss depth h
    refine Shallow.flatten_iff.2 fun us hus => ?_
    rw [Stmt.tokensOf_eq] at hus
    obtain ⟨s, hs, rfl⟩ := List.mem_map.1 hus
    exact h s hs
  induction s using Stmt.induct generalizing depth with
  | expr e =>
    simp only [Stmt.tokens, Shallow.append_iff, Shallow.cons_iff, Shallow.nil, and_true]
    exact ⟨Expr.shallow_tokens (h.1 (depth, e) List.mem_cons_self), hd⟩
  | set target e =>
    simp only [Stmt.tokens, Shallow.append_iff, Shallow.cons_iff, Shallow.nil, and_true]
    exact ⟨hd, hd, Expr.shallow_tokens (h.1 (depth, e) List.mem_cons_self), hd⟩
  | ret value =>
    cases value with
    | none =>
      simp only [Stmt.tokens, Shallow.cons_iff, Shallow.nil, and_true]
      exact ⟨hd, hd⟩
    | some e =>
      simp only [Stmt.tokens, Shallow.append_iff, Shallow.cons_iff, Shallow.nil, and_true]
      exact ⟨hd, Expr.shallow_tokens (h.1 (depth, e) List.mem_cons_self), hd⟩
  | ifThen test body ih =>
    obtain ⟨htest, hd', hb⟩ := Stmt.fits_ifThen.1 h
    exact Shallow.append_iff.2
      ⟨.condition hd (Expr.shallow_tokens htest), .braced hd' (hbody fun s hs => ih s hs hd' (hb s hs))⟩
  | ifElse test yes no ihy ihn =>
    obtain ⟨htest, hd', hy, hn⟩ := Stmt.fits_ifElse.1 h
    simp only [Stmt.tokens, Shallow.append_iff, Shallow.cons_iff]
    exact ⟨⟨.condition hd (Expr.shallow_tokens htest), .braced hd' (hbody fun s hs => ihy s hs hd' (hy s hs))⟩, hd,
      .braced hd' (hbody fun s hs => ihn s hs hd' (hn s hs))⟩

theorem Stmt.complete_unsigned (depth : Nat) (s : Stmt) :
    s.unsigned.complete depth = (s.complete depth).map fun x => (x.1, x.2.unsigned) := by
  have hall : ∀ {ss : List Stmt} {depth : Nat}, (∀ s ∈ ss, s.unsigned.complete depth =
      (s.complete depth).map fun x => (x.1, x.2.unsigned)) → Stmt.completeOf depth (Stmt.unsignedAll ss) =
      (Stmt.completeOf depth ss).map fun x => (x.1, x.2.unsigned) := by
    intro ss depth h
    induction ss with
    | nil => rfl
    | cons s ss ih =>
      obtain ⟨hs, hss⟩ := List.forall_mem_cons.1 h
      rw [Stmt.unsignedAll, Stmt.completeOf, Stmt.completeOf, hs, ih hss, List.map_append]
  induction s using Stmt.induct generalizing depth with
  | expr => rfl
  | set => rfl
  | ret value => cases value <;> rfl
  | ifThen test body ih =>
    rw [Stmt.unsigned, Stmt.complete, Stmt.complete, hall fun s hs => ih s hs (depth + 1), List.map_cons]
  | ifElse test yes no ihy ihn =>
    rw [Stmt.unsigned, Stmt.complete, Stmt.complete, hall fun s hs => ihy s hs (depth + 1),
      hall fun s hs => ihn s hs (depth + 1), List.map_cons, List.map_append]

theorem Stmt.low_unsigned {depth : Nat} {s : Stmt} (h : s.Fits depth) : Low (s.unsigned.complete depth) := by
  rw [Stmt.complete_unsigned]
  intro x hx
  obtain ⟨y, hy, rfl⟩ := List.mem_map.1 hx
  have hfit := h.1 y hy
  have hheight := y.2.height_unsigned_le
  show y.1 + y.2.unsigned.height - 1 ≤ maxNesting
  omega

theorem Stmt.isStmt {depth : Nat} {s : Stmt} (hd : depth ≤ maxNesting) (h : s.Fits depth) :
    ParseM.IsStmt depth (s.tokens depth) s.unsigned :=
  ParseM.isStmt_of_statement (s.statement depth) (Stmt.shallow_tokens hd h) (Stmt.low_unsigned h)

/-- Statements within the limit, each with the tokens of its text. -/
theorem Stmt.isStmt_parts {depth : Nat} {ss : List Stmt} (hd : depth ≤ maxNesting) (h : ∀ s ∈ ss, s.Fits depth) :
    ∀ part ∈ ss.map (fun s => (s.tokens depth, s.unsigned)), Statement depth part.1 part.2 ∧
      ParseM.IsStmt depth part.1 part.2 := by
  intro part hpart
  obtain ⟨s, hs, rfl⟩ := List.mem_map.1 hpart
  exact ⟨s.statement depth, Stmt.isStmt hd (h s hs)⟩

theorem Expr.isAtom {depth : Nat} {e : Expr} (h : depth + e.nesting ≤ maxNesting) :
    ParseM.IsAtom depth (e.tokens depth) e.unsigned := by
  have hheight := e.height_unsigned_le
  exact (ParseM.reaches_of_expression (e.expression depth) (Expr.shallow_tokens h) (by omega)).1 rfl

theorem Function.shallow_tokens {f : Function} (h : ∀ s ∈ f.body, s.Fits 0) : Shallow f.tokens := by
  have hbody : Shallow (Stmt.tokensOf 0 f.body).flatten := by
    rw [Stmt.tokensOf_eq]
    refine Shallow.flatten_iff.2 fun us hus => ?_
    obtain ⟨s, hs, rfl⟩ := List.mem_map.1 hus
    exact Stmt.shallow_tokens (Nat.zero_le _) (h s hs)
  simp only [Function.tokens, Shallow.cons_iff, Shallow.append_iff]
  exact ⟨Nat.zero_le _, Nat.zero_le _, Nat.zero_le _, .names _, Nat.zero_le _, Nat.zero_le _,
    .locals f.locals_derived, hbody, Nat.zero_le _, Shallow.nil⟩

theorem Function.low_unsigned {f : Function} (h : ∀ s ∈ f.body, s.Fits 0) :
    Low (Stmt.completeOf 0 f.unsigned.body) := by
  refine Low.completeOf_iff.2 fun s hs => ?_
  obtain ⟨s', hs', rfl⟩ := List.mem_map.1 hs
  exact Stmt.low_unsigned (h s' hs')

/-- A program within the limit is read back from its text. -/
theorem Program.parse_text {p : Program} (h : p.Uses IsIdentifier (Int64.minValue < ·)) (hfits : p.Fits) :
    Program.parse p.text = .ok p.unsigned := by
  rw [Program.fits_iff] at hfits
  obtain ⟨l, hr⟩ := Program.reads_text h
  have hshallow : Shallow p.tokens := by
    refine Shallow.flatten_iff.2 fun us hus => ?_
    obtain ⟨f, hf, rfl⟩ := List.mem_map.1 hus
    exact Function.shallow_tokens (hfits f hf)
  have hlow : Low p.unsigned.complete := by
    intro x hx
    obtain ⟨f', hf', hx⟩ := List.mem_flatMap.1 hx
    obtain ⟨f, hf, rfl⟩ := List.mem_map.1 hf'
    exact Function.low_unsigned (hfits f hf) x hx
  exact Program.ofLexer_eq_ok_iff.2 (ParseM.program_run p.derives hshallow hlow hr)

/-! ## Beyond the limit -/

theorem exists_first {α : Type} {P : α → Prop} {xs : List α} (h : ¬ ∀ x ∈ xs, P x) :
    ∃ before x after, xs = before ++ x :: after ∧ (∀ y ∈ before, P y) ∧ ¬ P x := by
  induction xs with
  | nil => exact absurd (by simp) h
  | cons x xs ih =>
    by_cases hx : P x
    · obtain ⟨before, y, after, rfl, hbefore, hy⟩ := ih fun hxs => h (List.forall_mem_cons.2 ⟨hx, hxs⟩)
      exact ⟨x :: before, y, after, rfl, List.forall_mem_cons.2 ⟨hx, hbefore⟩, hy⟩
    · exact ⟨[], x, xs, rfl, by simp, hx⟩

namespace ParseM

/-- The parser stops because constructs nest too deep. -/
def TooDeep {α : Type} (x : ParseM α) (l : Lexer) : Prop := ∃ loc, x l = .error ⟨.codeTooDeep, loc⟩

section

variable {α β : Type} {x y : ParseM α} {f : α → ParseM β} {l l' : Lexer} {a : α}

theorem TooDeep.of_eq (h : y l' = x l) (hx : TooDeep x l) : TooDeep y l' := by
  rwa [TooDeep, h]

theorem TooDeep.bind (h : TooDeep x l) : TooDeep (x >>= f) l := by
  obtain ⟨loc, h⟩ := h
  exact ⟨loc, bind_error h⟩

/-- What comes behind a part that succeeds. -/
theorem TooDeep.behind (hx : x l = .ok (a, l')) (h : TooDeep (f a) l') : TooDeep (x >>= f) l := h.of_eq (bind_run hx)

theorem TooDeep.map (g : α → β) (h : TooDeep x l) : TooDeep (g <$> x) l := by
  rw [← bind_pure_comp]
  exact h.bind

theorem TooDeep.required {item : ParseM (Option α)} {place : ParseError.Place} (h : TooDeep item l) :
    TooDeep (required place item) l := h.bind

/-- There is no level left, or the construct is too deep inside. -/
theorem tooDeep_enter {inner : Option α} {loc : Location} (h : ∀ a, inner = some a → TooDeep (f a) l) :
    TooDeep (enter inner loc >>= f) l := by
  cases inner with
  | none => exact ⟨loc, rfl⟩
  | some a => exact h a rfl

end

variable {l l₁ : Lexer} {t : Token} {room depth : Nat}

/-! ### Expressions -/

theorem binary_tooDeep {atom : ParseM (Option Measured)} (level : Nat) (h : TooDeep atom l) :
    TooDeep (binary atom level) l := by
  rw [binary_eq]
  exact h.bind

theorem paren_tooDeep (hd : l.Delivers t l₁) (ht : t.kind = .lparen)
    (h : ∀ r l', room = r + 1 → l'.stream = l₁.stream → TooDeep (binary (ParseM.atom r) 0) l') :
    TooDeep (ParseM.atom room) l := by
  obtain ⟨l', hn, hs⟩ := next_run hd
  rw [atom_eq, atomWith]
  refine .behind hn ?_
  rw [ht]
  refine tooDeep_enter fun a ha => ?_
  cases room with
  | zero => cases ha
  | succ r =>
    cases ha
    exact (h r l' rfl hs).required.bind

theorem sign_tooDeep (op : UnaryOp) (hd : l.Delivers t l₁) (ht : t.kind = op.token)
    (h : ∀ r l', room = r + 1 → l'.stream = l₁.stream → TooDeep (ParseM.atom r) l') :
    TooDeep (ParseM.atom room) l := by
  obtain ⟨l', hn, hs⟩ := next_run hd
  rw [atom_eq, atomWith]
  refine .behind hn ?_
  have hinner : ∀ a, below room = some a → TooDeep (some <$> signed op a) l' := by
    intro a ha
    cases room with
    | zero => cases ha
    | succ r =>
      cases ha
      exact ((h r l' rfl hs).required.map _).map some
  rw [ht]
  cases op with
  | identity => exact tooDeep_enter hinner
  | negate => exact tooDeep_enter hinner

theorem call_tooDeep {callee : String} {us : List Placed}
    (hr : l.Reads ((.ident callee, depth) :: (.lparen, depth + 1) :: us) l₁)
    (h : ∀ r l', room = r + 1 → l'.Reads us l₁ → TooDeep (arguments callee (binary (ParseM.atom r) 0)) l') :
    TooDeep (ParseM.atom room) l := by
  obtain ⟨t, l₂, ht, hd, hr⟩ := hr.uncons
  obtain ⟨u, l₃, hu, hd', hr⟩ := hr.uncons
  obtain ⟨l₄, hn, hs₄⟩ := next_run hd
  obtain ⟨l₅, ha, hs₅⟩ := accept_run (hd'.congr_left hs₄) hu
  rw [atom_eq, atomWith]
  refine .behind hn ?_
  rw [ht]
  refine .behind ha ?_
  simp only [if_true]
  refine tooDeep_enter fun a hroom => ?_
  cases room with
  | zero => cases hroom
  | succ r =>
    cases hroom
    exact (h r l₅ rfl (hr.congr_left hs₅)).bind

/-- The left operand is read, and the right one is too deep. -/
theorem operation_tooDeep {op : BinaryOp} {a : Expr} {vs : List Placed} (hroom : room + depth = maxNesting)
    (ha : depth + a.nesting ≤ maxNesting) (hr : l.Reads (a.tokens depth ++ (op.token, depth) :: vs) l₁)
    (h : ∀ l', l'.Reads vs l₁ → TooDeep (ParseM.atom room) l') : TooDeep (binary (ParseM.atom room) 0) l := by
  obtain ⟨l₂, hleft, hr⟩ := hr.split
  obtain ⟨t, l₃, ht, hd, hr⟩ := hr.uncons
  have hstop : Stops 5 l₂ := by
    refine ⟨t, l₃, hd, ?_, fun op' _ => Nat.le_of_lt op'.precedence_lt⟩
    rw [ht]
    cases op <;> simp [BinaryOp.token]
  obtain ⟨l₄, hatom, hs₄⟩ := Expr.isAtom ha room l l₂ hroom hleft hstop
  obtain ⟨l₅, hn, hs₅⟩ := next_run (hd.congr_left hs₄)
  rw [binary_eq]
  refine .behind hatom (.map some (.bind ?_))
  unfold climb
  refine .behind hn ?_
  rw [ht, BinaryOp.binaryOp?_token]
  exact (binary_tooDeep _ (h l₅ (hr.congr_left hs₅))).required.bind

/-- The arguments in front of one that is too deep are read. -/
theorem arguments_tooDeep (callee : String) {args : List Expr} (hroom : room + depth = maxNesting)
    (hargs : ∀ e ∈ args, ∀ l l₁, l.Reads (e.tokens depth) l₁ → room < e.nesting → TooDeep (ParseM.atom room) l)
    (h : ¬ ∀ e ∈ args, e.nesting ≤ room)
    (hr : l.Reads (separated depth (args.map (Expr.tokens depth)) ++ [(.rparen, depth)]) l₁) :
    TooDeep (arguments callee (binary (ParseM.atom room) 0)) l := by
  obtain ⟨before, e, after, rfl, hbefore, he⟩ := exists_first h
  have hdeep : ∀ l l₁, l.Reads (e.tokens depth) l₁ →
      TooDeep (required (.inArgs callee) (binary (ParseM.atom room) 0)) l := fun l l₁ hr =>
    (binary_tooDeep 0 (hargs e (by simp) l l₁ hr (Nat.lt_of_not_le he))).required
  cases before with
  | nil =>
    rw [List.nil_append, List.map_cons, separated_cons, List.append_assoc] at hr
    obtain ⟨l₂, hr₂, -⟩ := hr.split
    obtain ⟨l', hs, hrun⟩ := arguments_run_first callee (binary (ParseM.atom room) 0) (e.expression depth) hr₂
    exact .of_eq hrun (hdeep l' l₂ (hr₂.congr_left hs)).bind
  | cons first more =>
    obtain ⟨hfirst, hmore⟩ := List.forall_mem_cons.1 hbefore
    obtain ⟨tail, htokens⟩ : ∃ tail, separated depth ((first :: more ++ e :: after).map (Expr.tokens depth)) ++
        [(.rparen, depth)] = first.tokens depth ++
          (((more.map (Expr.tokens depth)).map ((.comma, depth) :: ·)).flatten ++
            (.comma, depth) :: (e.tokens depth ++ tail)) :=
      ⟨((after.map (Expr.tokens depth)).map ((.comma, depth) :: ·)).flatten ++ [(.rparen, depth)], by
        simp [separated_cons]⟩
    rw [htokens] at hr
    obtain ⟨l₂, hr₂, hr⟩ := hr.split
    obtain ⟨l₃, hr₃, hr⟩ := hr.split
    obtain ⟨t, l₄, ht, hd, hr⟩ := hr.uncons
    obtain ⟨l₅, hr₅, -⟩ := hr.split
    have hdelim₃ : Delimited l₃ := ⟨t, l₄, hd, .inl ht⟩
    have hdelim₂ : Delimited l₂ := by
      cases more with
      | nil => exact hdelim₃.congr (Reads.nil_iff.1 hr₃)
      | cons next more =>
        obtain ⟨u, l₆, hu, hd', -⟩ := hr₃.uncons
        exact ⟨u, l₆, hd', .inl hu⟩
    have hread : ∀ e : Expr, e.nesting ≤ room → ∀ l l₁, l.Reads (e.tokens depth) l₁ → Delimited l₁ →
        ∃ l', required (.inArgs callee) (binary (ParseM.atom room) 0) l = .ok (e.unsigned.measured, l') ∧
          l'.stream = l₁.stream := by
      intro e he l l₁ hr hdelim
      obtain ⟨l', hb, hs⟩ := (Expr.isAtom (by omega)).reaches.run_delimited hroom hr hdelim
      exact ⟨l', required_run hb, hs⟩
    obtain ⟨l₆, hs₆, hrun⟩ := arguments_run_first callee (binary (ParseM.atom room) 0) (first.expression depth) hr₂
    obtain ⟨l₇, hf, hs₇⟩ := hread first hfirst l₆ l₂ (hr₂.congr_left hs₆) hdelim₂
    refine .of_eq hrun (.behind hf (.bind ?_))
    -- The list behind the first argument is read up to the one that is too deep.
    have hitem : ∀ part ∈ more.map (fun e => (e.tokens depth, e.unsigned.measured)), ∀ l l₁, l.Reads part.1 l₁ →
        Delimited l₁ → ∃ l', required (.inArgs callee) (binary (ParseM.atom room) 0) l = .ok (part.2, l') ∧
          l'.stream = l₁.stream := by
      intro part hpart
      obtain ⟨e', he', rfl⟩ := List.mem_map.1 hpart
      exact hread e' (hmore e' he')
    have hne : ∀ part ∈ more.map (fun e => (e.tokens depth, e.unsigned.measured)), ∀ u ∈ part.1, u.1 ≠ .eof := by
      intro part hpart
      obtain ⟨e', -, rfl⟩ := List.mem_map.1 hpart
      exact (e'.expression depth).ne_eof
    obtain ⟨l₈, hs₈, -, herror⟩ := many_afterComma_items hitem (fun l t l' hd ht => ⟨t, l', hd, .inl ht⟩) hne
      (fun l hs => hdelim₃.congr hs) (by simpa [Function.comp_def] using hr₃.congr_left hs₇)
    obtain ⟨l₉, ha, hs₉⟩ := accept_run (hd.congr_left hs₈) ht
    obtain ⟨loc, hloc⟩ := (hdeep l₉ l₅ (hr₅.congr_left hs₉)).map some
    refine ⟨loc, herror _ ?_⟩
    unfold afterComma
    rw [bind_run ha]
    exact hloc

theorem atom_tooDeep {e : Expr} (hroom : room + depth = maxNesting) (hr : l.Reads (e.tokens depth) l₁)
    (h : room < e.nesting) : TooDeep (ParseM.atom room) l := by
  induction e using Expr.induct generalizing depth room l l₁ with
  | num value =>
    rw [Expr.nesting] at h
    split at h
    · rename_i hneg
      rw [Expr.tokens, if_pos hneg] at hr
      obtain ⟨t, l₂, ht, hd, -⟩ := hr.uncons
      exact paren_tooDeep hd ht fun r _ hr _ => by omega
    · omega
  | var => simp [Expr.nesting] at h
  | unary op e ih =>
    rw [Expr.nesting] at h
    obtain ⟨t, l₂, ht, hd, hr⟩ := hr.uncons
    refine sign_tooDeep op hd ht fun r l' hr' hs => ?_
    exact ih (show r + (depth + 1) = maxNesting by omega) (hr.congr_left hs) (by omega)
  | binary op a b iha ihb =>
    rw [Expr.nesting] at h
    obtain ⟨t, l₂, ht, hd, hr⟩ := hr.uncons
    obtain ⟨l₃, hr, -⟩ := hr.split
    refine paren_tooDeep hd ht fun r l' hr' hs => ?_
    have hroom' : r + (depth + 1) = maxNesting := by omega
    by_cases ha : a.nesting ≤ r
    · refine operation_tooDeep hroom' (by omega) (hr.congr_left hs) fun l'' hb => ?_
      exact ihb hroom' hb (by omega)
    · obtain ⟨l₄, hr₄, -⟩ := hr.split
      exact binary_tooDeep 0 (iha hroom' (hr₄.congr_left hs) (by omega))
  | call callee args ih =>
    rw [Expr.nesting] at h
    rw [Expr.tokens, Expr.tokensOf_eq] at hr
    refine call_tooDeep hr fun r l' hr' hr => ?_
    have hroom' : r + (depth + 1) = maxNesting := by omega
    refine arguments_tooDeep callee hroom' ?_ ?_ hr
    · intro e he l l₁ hr hlt
      exact ih e he hroom' hr hlt
    · rw [← Expr.nestingOf_le_iff]
      omega

theorem expression_tooDeep {e : Expr} (hroom : room + depth = maxNesting) (hr : l.Reads (e.tokens depth) l₁)
    (h : ¬ depth + e.nesting ≤ maxNesting) : TooDeep (expression room) l := by
  obtain ⟨u, us, hus, -⟩ := (e.expression depth).opens
  obtain ⟨t, l₂, -, hd, -⟩ := Reads.uncons (hus ▸ hr)
  obtain ⟨l₃, hp, hs₃⟩ := peek_run hd
  unfold expression
  refine .behind hp (.bind (binary_tooDeep 0 ?_))
  exact atom_tooDeep hroom (hr.congr_left hs₃) (by omega)

/-! ### Statements -/

theorem statements_tooDeep {ss : List Stmt} (hroom : room + depth = maxNesting)
    (hss : ∀ s ∈ ss, ∀ l l₁, l.Reads (s.tokens depth) l₁ → ¬ s.Fits depth → TooDeep (statement room) l)
    (h : ¬ ∀ s ∈ ss, s.Fits depth) (hr : l.Reads (Stmt.tokensOf depth ss).flatten l₁) :
    TooDeep (many (statement room)) l := by
  obtain ⟨before, s, after, rfl, hbefore, hs⟩ := exists_first h
  rw [Stmt.tokensOf_eq, List.map_append, List.flatten_append, List.map_cons, List.flatten_cons] at hr
  obtain ⟨l₂, hr₂, hr⟩ := hr.split
  obtain ⟨l₃, hr₃, -⟩ := hr.split
  have hbody := Stmt.isStmt_parts (by omega) hbefore
  have hend : Ended l₂ := by
    obtain ⟨⟨u, us, hus, hu, -⟩, -⟩ := (s.statement depth).tokens
    obtain ⟨t, l₄, ht, hd, -⟩ := Reads.uncons (hus ▸ hr₃)
    exact ⟨t, l₄, hd, ht ▸ hu⟩
  obtain ⟨l₄, hs₄, -, herror⟩ := statements_items room hroom (fun part hpart => (hbody part hpart).1)
    (fun part hpart => (hbody part hpart).2) (by simpa [Function.comp_def] using hr₂) hend
  obtain ⟨loc, hloc⟩ := hss s (by simp) l₄ l₃ (hr₃.congr_left hs₄) hs
  exact ⟨loc, herror _ hloc⟩

theorem block_tooDeep (place : ParseError.Place) {body : List Stmt} (hroom : room + depth = maxNesting)
    (hbody : ∀ s ∈ body, ∀ r l l₁, r + (depth + 1) = maxNesting → l.Reads (s.tokens (depth + 1)) l₁ →
      ¬ s.Fits (depth + 1) → TooDeep (statement r) l)
    (h : depth + 1 ≤ maxNesting → ¬ ∀ s ∈ body, s.Fits (depth + 1))
    (hr : l.Reads (braced depth (Stmt.tokensOf (depth + 1) body)) l₁) : TooDeep (block place (within room)) l := by
  obtain ⟨t, l₂, ht, hd, hr⟩ := hr.uncons
  obtain ⟨l₃, hr₃, -⟩ := hr.split
  obtain ⟨l₄, hopen, hs₄⟩ := expect_run hd ht place
  unfold block
  refine .behind hopen (tooDeep_enter fun a ha => ?_)
  cases room with
  | zero => cases ha
  | succ r =>
    cases ha
    have hroom' : r + (depth + 1) = maxNesting := by omega
    refine (statements_tooDeep hroom' ?_ (h (by omega)) (hr₃.congr_left hs₄)).bind
    intro s hs l l₁
    exact hbody s hs r l l₁ hroom'

/-- The condition is too deep, or it is read and a block is too deep. -/
theorem conditional_tooDeep {test : Expr} {us : List Placed} {inner : Option (ParseM (Option Stmt))}
    (hroom : room + depth = maxNesting)
    (hr : l.Reads (((.lparen, depth) :: (test.tokens depth ++ [(.rparen, depth)])) ++ us) l₁)
    (h : depth + test.nesting ≤ maxNesting → ∀ l', l'.Reads us l₁ → TooDeep (do
      let yes ← block .afterCondition inner
      if ← accept .kwElse then
        return Stmt.ifElse test.unsigned yes (← block .afterElse inner)
      else
        return Stmt.ifThen test.unsigned yes) l') :
    TooDeep (conditional room inner) l := by
  obtain ⟨l₂, hr₂, hr⟩ := hr.split
  by_cases htest : depth + test.nesting ≤ maxNesting
  · have hheight := test.height_unsigned_le
    obtain ⟨l', hs', hrun⟩ := conditional_run_test hroom (test.complete_expression depth)
      (Expr.shallow_tokens htest) (by omega) hr₂
    exact .of_eq hrun (h htest l' (hr.congr_left hs'))
  · obtain ⟨t, l₃, ht, hd, hr₂⟩ := hr₂.uncons
    obtain ⟨l₄, hr₄, -⟩ := hr₂.split
    obtain ⟨l₅, hopen, hs₅⟩ := expect_run hd ht .afterIf
    unfold conditional
    exact .behind hopen (expression_tooDeep hroom (hr₄.congr_left hs₅) htest).required.bind

theorem statement_tooDeep {s : Stmt} (hroom : room + depth = maxNesting) (hr : l.Reads (s.tokens depth) l₁)
    (h : ¬ s.Fits depth) : TooDeep (statement room) l := by
  induction s using Stmt.induct generalizing depth room l l₁ with
  | expr e =>
    have he : ¬ depth + e.nesting ≤ maxNesting := by simpa [Stmt.Fits, Stmt.complete, Stmt.blocks] using h
    obtain ⟨l₂, hs₂, hrun⟩ := statement_run_expr room (e.complete_expression depth) hr
    obtain ⟨l₃, hr₃, -⟩ := hr.split
    exact .of_eq hrun (expression_tooDeep hroom (hr₃.congr_left hs₂) he).bind
  | set target e =>
    have he : ¬ depth + e.nesting ≤ maxNesting := by simpa [Stmt.Fits, Stmt.complete, Stmt.blocks] using h
    obtain ⟨l₂, hr₂, hr⟩ := Reads.split (show l.Reads ([(.ident target, depth), (.assign, depth)] ++ _) l₁ from hr)
    obtain ⟨l₃, hs₃, hrun⟩ := statement_run_set room hr₂
    obtain ⟨l₄, hr₄, -⟩ := hr.split
    exact .of_eq hrun (expression_tooDeep hroom (hr₄.congr_left hs₃) he).required.bind
  | ret value =>
    cases value with
    | none => exact absurd (by simp [Stmt.Fits, Stmt.complete, Stmt.blocks]) h
    | some e =>
      have he : ¬ depth + e.nesting ≤ maxNesting := by simpa [Stmt.Fits, Stmt.complete, Stmt.blocks] using h
      obtain ⟨t, l₂, ht, hd, hr⟩ := hr.uncons
      obtain ⟨l₃, hs₃, hrun⟩ := statement_run_leave room hd ht
      obtain ⟨l₄, hr₄, -⟩ := hr.split
      exact .of_eq hrun (expression_tooDeep hroom (hr₄.congr_left hs₃) he).bind
  | ifThen test body ih =>
    rw [Stmt.fits_ifThen] at h
    obtain ⟨l₂, hr, hrun⟩ := statement_run_if room hr (by simp)
    refine .of_eq hrun (.map some (conditional_tooDeep hroom hr fun htest l' hr => ?_))
    refine (block_tooDeep .afterCondition hroom ?_ (fun hd hbody => h ⟨htest, hd, hbody⟩) hr).bind
    intro s hs r l l₁ hroom' hr hfits
    exact ih s hs hroom' hr hfits
  | ifElse test yes no ihy ihn =>
    rw [Stmt.fits_ifElse] at h
    rw [Stmt.tokens, List.append_assoc] at hr
    obtain ⟨l₂, hr, hrun⟩ := statement_run_if room hr (by simp)
    refine .of_eq hrun (.map some (conditional_tooDeep hroom hr fun htest l' hr => ?_))
    obtain ⟨l₃, hr₃, hr⟩ := hr.split
    by_cases hyes : depth + 1 ≤ maxNesting ∧ ∀ s ∈ yes, s.Fits (depth + 1)
    · obtain ⟨hd, hyes⟩ := hyes
      have hparts := Stmt.isStmt_parts hd hyes
      obtain ⟨l₄, hblock, hs₄⟩ := block_run .afterCondition hroom hd (fun part hp => (hparts part hp).1)
        (fun part hp => (hparts part hp).2) (by simpa [Stmt.tokensOf_eq, Function.comp_def] using hr₃)
      obtain ⟨t, l₅, ht, hd', hr⟩ := hr.uncons
      obtain ⟨l₆, ha, hs₆⟩ := accept_run (hd'.congr_left hs₄) ht
      refine .behind hblock (.behind ha ?_)
      refine (block_tooDeep .afterElse hroom ?_ (fun _ hno => h ⟨htest, hd, hyes, hno⟩) (hr.congr_left hs₆)).bind
      intro s hs r l l₁ hroom' hr hfits
      exact ihn s hs hroom' hr hfits
    · refine (block_tooDeep .afterCondition hroom ?_ (fun hd hbody => hyes ⟨hd, hbody⟩) hr₃).bind
      intro s hs r l l₁ hroom' hr hfits
      exact ihy s hs hroom' hr hfits

/-! ### Programs -/

theorem function_tooDeep {f : Function} (hr : l.Reads f.tokens l₁) (h : ¬ ∀ s ∈ f.body, s.Fits 0) :
    TooDeep function l := by
  have hbody : ∀ part ∈ f.body.map (fun s => (s.tokens 0, s.unsigned)), Statement 0 part.1 part.2 := by
    intro part hpart
    obtain ⟨s, -, rfl⟩ := List.mem_map.1 hpart
    exact s.statement 0
  obtain ⟨l₂, hr, hrun⟩ := function_run_header f.locals_derived hbody
    (by simpa [Function.tokens, Stmt.tokensOf_eq, Function.comp_def] using hr)
  obtain ⟨l₃, hr₃, -⟩ := hr.split
  have hroom : maxNesting + 0 = maxNesting := rfl
  have hstmts : l₂.Reads (Stmt.tokensOf 0 f.body).flatten l₃ := by
    simpa [Stmt.tokensOf_eq, Function.comp_def] using hr₃
  refine .of_eq hrun (.map some (statements_tooDeep hroom ?_ h hstmts).bind)
  intro s _ l l₁ hr hfits
  exact statement_tooDeep hroom hr hfits

theorem program_tooDeep {p : Program} (hr : l.Reads (p.tokens ++ [(.eof, 0)]) l₁) (h : ¬ p.Fits) :
    TooDeep program l := by
  rw [Program.fits_iff] at h
  obtain ⟨before, f, after, rfl, hbefore, hf⟩ := exists_first h
  obtain ⟨l₂, hr, -⟩ := hr.split
  rw [Program.tokens, List.map_append, List.flatten_append, List.map_cons, List.flatten_cons] at hr
  obtain ⟨l₃, hr₃, hr⟩ := hr.split
  obtain ⟨l₄, hr₄, -⟩ := hr.split
  have hitem : ∀ part ∈ before.map (fun f => (f.tokens, f.unsigned)), ∀ l l₁, l.Reads part.1 l₁ → True →
      ∃ l', function l = .ok (some part.2, l') ∧ l'.stream = l₁.stream := by
    intro part hpart l l₁ hr _
    obtain ⟨g, hg, rfl⟩ := List.mem_map.1 hpart
    exact function_run g.declaration (Function.shallow_tokens (hbefore g hg))
      (Function.low_unsigned (hbefore g hg)) hr
  have hne : ∀ part ∈ before.map (fun f => (f.tokens, f.unsigned)), part.1 ≠ [] ∧ ∀ u ∈ part.1, u.1 ≠ .eof := by
    intro part hpart
    obtain ⟨g, -, rfl⟩ := List.mem_map.1 hpart
    exact g.declaration.tokens
  obtain ⟨l₅, hs₅, -, herror⟩ := many_items hitem (fun _ _ _ _ _ => trivial) hne (fun _ _ => trivial)
    (by simpa [Function.comp_def] using hr₃)
  obtain ⟨loc, hloc⟩ := function_tooDeep (hr₄.congr_left hs₅) hf
  exact ⟨loc, bind_error (herror _ hloc)⟩

end ParseM

/-- Otherwise the parser stops where the text goes beyond the limit. -/
theorem Program.parse_text_error {p : Program} (h : p.Uses IsIdentifier (Int64.minValue < ·)) (hfits : ¬ p.Fits) :
    ∃ loc, Program.parse p.text = .error ⟨.codeTooDeep, loc⟩ := by
  obtain ⟨l, hr⟩ := Program.reads_text h
  obtain ⟨loc, hloc⟩ := ParseM.program_tooDeep hr hfits
  refine ⟨loc, ?_⟩
  unfold Program.parse Program.ofLexer StateT.run'
  rw [hloc]
  rfl

end Wordlang
