import Wordlang.Syntax.Printer
import Wordlang.Proofs.Parser.Completeness
import Wordlang.Proofs.Printer.Lexing

/-!
# The tokens of the text of a tree

The text of a tree consists of tokens from which the grammar derives the tree, with differences in place of
negative literals. Every expression is written as an atom, and how deep the tokens of its text lie is its
`Expr.nesting`.
-/

namespace Wordlang

open Grammar Lexer

/-! ## Induction on trees -/

/-- Induction on an expression; a call has the hypothesis for each of its arguments. -/
@[elab_as_elim]
theorem Expr.induct {P : Expr → Prop} (num : ∀ value, P (.num value)) (var : ∀ name, P (.var name))
    (unary : ∀ op e, P e → P (.unary op e)) (binary : ∀ op a b, P a → P b → P (.binary op a b))
    (call : ∀ callee args, (∀ e ∈ args, P e) → P (.call callee args)) : ∀ e, P e :=
  @Expr.rec P (fun es => ∀ e ∈ es, P e) num var unary binary call (by simp) fun _ _ he hes =>
    List.forall_mem_cons.2 ⟨he, hes⟩

/-- Induction on a statement; a conditional has the hypothesis for each statement of its blocks. -/
@[elab_as_elim]
theorem Stmt.induct {P : Stmt → Prop} (expr : ∀ e, P (.expr e)) (set : ∀ target e, P (.set target e))
    (ret : ∀ value, P (.ret value)) (ifThen : ∀ test body, (∀ s ∈ body, P s) → P (.ifThen test body))
    (ifElse : ∀ test yes no, (∀ s ∈ yes, P s) → (∀ s ∈ no, P s) → P (.ifElse test yes no)) : ∀ s, P s :=
  @Stmt.rec P (fun ss => ∀ s ∈ ss, P s) expr set ret ifThen ifElse (by simp) fun _ _ hs hss =>
    List.forall_mem_cons.2 ⟨hs, hss⟩

/-! ## Names and literals -/

mutual

/-- All names in an expression satisfy `P` and all literals `Q`. -/
def Expr.Uses (P : String → Prop) (Q : Word → Prop) : Expr → Prop
  | .num value => Q value
  | .var name => P name
  | .unary _ operand => operand.Uses P Q
  | .binary _ left right => left.Uses P Q ∧ right.Uses P Q
  | .call callee args => P callee ∧ Expr.UsesAll P Q args

def Expr.UsesAll (P : String → Prop) (Q : Word → Prop) : List Expr → Prop
  | [] => True
  | e :: es => e.Uses P Q ∧ Expr.UsesAll P Q es

end

mutual

def Stmt.Uses (P : String → Prop) (Q : Word → Prop) : Stmt → Prop
  | .expr e => e.Uses P Q
  | .set target value => P target ∧ value.Uses P Q
  | .ret none => True
  | .ret (some e) => e.Uses P Q
  | .ifThen test body => test.Uses P Q ∧ Stmt.UsesAll P Q body
  | .ifElse test yes no => test.Uses P Q ∧ Stmt.UsesAll P Q yes ∧ Stmt.UsesAll P Q no

def Stmt.UsesAll (P : String → Prop) (Q : Word → Prop) : List Stmt → Prop
  | [] => True
  | s :: ss => s.Uses P Q ∧ Stmt.UsesAll P Q ss

end

def Function.Uses (P : String → Prop) (Q : Word → Prop) (f : Function) : Prop :=
  P f.name ∧ (∀ x ∈ f.params, P x) ∧ (∀ x ∈ f.locals, P x) ∧ ∀ s ∈ f.body, s.Uses P Q

def Program.Uses (P : String → Prop) (Q : Word → Prop) (p : Program) : Prop := ∀ f ∈ p, f.Uses P Q

section

variable {P : String → Prop} {Q Q' : Word → Prop}

theorem Expr.usesAll_iff {es : List Expr} : Expr.UsesAll P Q es ↔ ∀ e ∈ es, e.Uses P Q := by
  induction es with
  | nil => simp [Expr.UsesAll]
  | cons e es ih => rw [Expr.UsesAll, ih, List.forall_mem_cons]

theorem Stmt.usesAll_iff {ss : List Stmt} : Stmt.UsesAll P Q ss ↔ ∀ s ∈ ss, s.Uses P Q := by
  induction ss with
  | nil => simp [Stmt.UsesAll]
  | cons s ss ih => rw [Stmt.UsesAll, ih, List.forall_mem_cons]

end

/-! ## What the text of a tree stands for -/

mutual

/-- Literals have no sign, so the text of a negative one stands for a difference. -/
def Expr.unsigned : Expr → Expr
  | .num value => if value < 0 then .binary .sub (.num 0) (.num (Int64.ofNat value.toInt.natAbs)) else .num value
  | .var name => .var name
  | .unary op operand => .unary op operand.unsigned
  | .binary op left right => .binary op left.unsigned right.unsigned
  | .call callee args => .call callee (Expr.unsignedAll args)

def Expr.unsignedAll : List Expr → List Expr
  | [] => []
  | e :: es => e.unsigned :: Expr.unsignedAll es

end

mutual

def Stmt.unsigned : Stmt → Stmt
  | .expr e => .expr e.unsigned
  | .set target value => .set target value.unsigned
  | .ret value => .ret (value.map Expr.unsigned)
  | .ifThen test body => .ifThen test.unsigned (Stmt.unsignedAll body)
  | .ifElse test yes no => .ifElse test.unsigned (Stmt.unsignedAll yes) (Stmt.unsignedAll no)

def Stmt.unsignedAll : List Stmt → List Stmt
  | [] => []
  | s :: ss => s.unsigned :: Stmt.unsignedAll ss

end

def Function.unsigned (f : Function) : Function := { f with body := f.body.map Stmt.unsigned }

def Program.unsigned (p : Program) : Program := p.map Function.unsigned

theorem Expr.unsignedAll_eq (es : List Expr) : Expr.unsignedAll es = es.map Expr.unsigned := by
  induction es with
  | nil => rfl
  | cons e es ih => rw [Expr.unsignedAll, ih, List.map_cons]

theorem Stmt.unsignedAll_eq (ss : List Stmt) : Stmt.unsignedAll ss = ss.map Stmt.unsigned := by
  induction ss with
  | nil => rfl
  | cons s ss ih => rw [Stmt.unsignedAll, ih, List.map_cons]

/-! A tree without negative literals is what its text stands for. -/

theorem Expr.unsigned_eq {P : String → Prop} {e : Expr} (h : e.Uses P (0 ≤ ·)) : e.unsigned = e := by
  induction e using Expr.induct with
  | num value => exact if_neg (Int64.not_lt.2 h)
  | var => rfl
  | unary op e ih => rw [Expr.unsigned, ih h]
  | binary op a b iha ihb => rw [Expr.unsigned, iha h.1, ihb h.2]
  | call callee args ih =>
    rw [Expr.Uses, Expr.usesAll_iff] at h
    rw [Expr.unsigned, Expr.unsignedAll_eq, List.map_congr_left fun e he => ih e he (h.2 e he), List.map_id']

theorem Stmt.unsigned_eq {P : String → Prop} {s : Stmt} (h : s.Uses P (0 ≤ ·)) : s.unsigned = s := by
  have hall : ∀ {ss : List Stmt}, (∀ s ∈ ss, s.Uses P (0 ≤ ·) → s.unsigned = s) →
      Stmt.UsesAll P (0 ≤ ·) ss → Stmt.unsignedAll ss = ss := by
    intro ss ih h
    rw [Stmt.usesAll_iff] at h
    rw [Stmt.unsignedAll_eq, List.map_congr_left fun s hs => ih s hs (h s hs), List.map_id']
  induction s using Stmt.induct with
  | expr e => rw [Stmt.unsigned, Expr.unsigned_eq h]
  | set target e => rw [Stmt.unsigned, Expr.unsigned_eq h.2]
  | ret value =>
    cases value with
    | none => rfl
    | some e => rw [Stmt.unsigned, Option.map_some, Expr.unsigned_eq h]
  | ifThen test body ih => rw [Stmt.unsigned, Expr.unsigned_eq h.1, hall ih h.2]
  | ifElse test yes no ihy ihn =>
    rw [Stmt.unsigned, Expr.unsigned_eq h.1, hall ihy h.2.1, hall ihn h.2.2]

theorem Program.unsigned_eq {P : String → Prop} {p : Program} (h : p.Uses P (0 ≤ ·)) : p.unsigned = p := by
  have hf : ∀ f ∈ p, f.unsigned = f := by
    intro f hf
    rw [Function.unsigned, List.map_congr_left fun s hs => Stmt.unsigned_eq ((h f hf).2.2.2 s hs), List.map_id']
  rw [Program.unsigned, List.map_congr_left hf, List.map_id']

/-! ## Tokens -/

mutual

/-- How deep constructs nest in the text of an expression. Unlike the height, this counts the argument list of a
call even if it is empty. -/
def Expr.nesting : Expr → Nat
  | .num value => if value < 0 then 1 else 0
  | .var _ => 0
  | .unary _ operand => operand.nesting + 1
  | .binary _ left right => max left.nesting right.nesting + 1
  | .call _ args => Expr.nestingOf args + 1

def Expr.nestingOf : List Expr → Nat
  | [] => 0
  | e :: es => max e.nesting (Expr.nestingOf es)

end

mutual

/-- The tokens of the text of an expression that lies in `depth` constructs. -/
def Expr.tokens (depth : Nat) : Expr → List Placed
  | .num value =>
    if value < 0 then
      [(.lparen, depth + 1), (.number 0, depth + 1), (.minus, depth + 1),
        (.number (Int64.ofNat value.toInt.natAbs), depth + 1), (.rparen, depth + 1)]
    else [(.number value, depth)]
  | .var name => [(.ident name, depth)]
  | .unary op operand => (op.token, depth) :: operand.tokens (depth + 1)
  | .binary op left right =>
    (.lparen, depth + 1) :: (left.tokens (depth + 1) ++ (op.token, depth + 1) :: right.tokens (depth + 1) ++
      [(.rparen, depth + 1)])
  | .call callee args =>
    (.ident callee, depth) :: (.lparen, depth + 1) ::
      (separated (depth + 1) (Expr.tokensOf (depth + 1) args) ++ [(.rparen, depth + 1)])

def Expr.tokensOf (depth : Nat) : List Expr → List (List Placed)
  | [] => []
  | e :: es => e.tokens depth :: Expr.tokensOf depth es

end

mutual

def Stmt.tokens (depth : Nat) : Stmt → List Placed
  | .expr e => e.tokens depth ++ [(.semicolon, depth)]
  | .set target value => (.ident target, depth) :: (.assign, depth) :: (value.tokens depth ++ [(.semicolon, depth)])
  | .ret none => [(.kwReturn, depth), (.semicolon, depth)]
  | .ret (some e) => (.kwReturn, depth) :: (e.tokens depth ++ [(.semicolon, depth)])
  | .ifThen test body =>
    condition depth (test.tokens depth) ++ braced depth (Stmt.tokensOf (depth + 1) body)
  | .ifElse test yes no =>
    condition depth (test.tokens depth) ++ braced depth (Stmt.tokensOf (depth + 1) yes) ++
      (.kwElse, depth) :: braced depth (Stmt.tokensOf (depth + 1) no)

def Stmt.tokensOf (depth : Nat) : List Stmt → List (List Placed)
  | [] => []
  | s :: ss => s.tokens depth :: Stmt.tokensOf depth ss

end

/-- An empty declaration of locals is not written. -/
def Function.localTokens (f : Function) : List Placed :=
  if f.locals.isEmpty then [] else (.kwVar, 0) :: (names f.locals ++ [(.semicolon, 0)])

def Function.tokens (f : Function) : List Placed :=
  (f.kind.token, 0) :: (.ident f.name, 0) :: (.lparen, 0) :: (names f.params ++ (.rparen, 0) :: (.lbrace, 0) ::
    (f.localTokens ++ ((Stmt.tokensOf 0 f.body).flatten ++ [(.rbrace, 0)])))

def Program.tokens (p : Program) : List Placed := (p.map Function.tokens).flatten

theorem Expr.tokensOf_eq (depth : Nat) (es : List Expr) : Expr.tokensOf depth es = es.map (Expr.tokens depth) := by
  induction es with
  | nil => rfl
  | cons e es ih => rw [Expr.tokensOf, ih, List.map_cons]

theorem Stmt.tokensOf_eq (depth : Nat) (ss : List Stmt) : Stmt.tokensOf depth ss = ss.map (Stmt.tokens depth) := by
  induction ss with
  | nil => rfl
  | cons s ss ih => rw [Stmt.tokensOf, ih, List.map_cons]

/-! ## The grammar -/

theorem Expr.expression (depth : Nat) (e : Expr) : Expression 5 depth (e.tokens depth) e.unsigned := by
  induction e using Expr.induct generalizing depth with
  | num value =>
    rw [Expr.tokens, Expr.unsigned]
    split
    · have hnumber : ∀ value level, level ≤ 5 →
          Expression level (depth + 1) [(.number value, depth + 1)] (.num value) :=
        fun value level h => (Expression.number (depth + 1) value).looser h (Nat.le_refl 5)
      have hsub := Expression.binary .sub (hnumber 0 3 (by decide))
        (hnumber (Int64.ofNat value.toInt.natAbs) 4 (by decide))
      exact .group (hsub.looser (Nat.zero_le _) (by decide))
    · exact .number depth value
  | var name => exact .name depth name
  | unary op e ih => exact .sign op (ih (depth + 1))
  | binary op a b iha ihb =>
    have hlt := op.precedence_lt
    have hop := Expression.binary op ((iha (depth + 1)).looser (Nat.le_of_lt hlt) (Nat.le_refl 5))
      ((ihb (depth + 1)).looser hlt (Nat.le_refl 5))
    exact .group (hop.looser (Nat.zero_le _) (Nat.le_of_lt hlt))
  | call callee args ih =>
    have hargs : ∀ arg ∈ args.map fun e => (e.tokens (depth + 1), e.unsigned),
        Expression 0 (depth + 1) arg.1 arg.2 := by
      intro arg harg
      obtain ⟨e, he, rfl⟩ := List.mem_map.1 harg
      exact (ih e he (depth + 1)).looser (Nat.zero_le _) (Nat.le_refl 5)
    have hcall := Expression.call callee _ hargs
    rw [List.map_map, List.map_map] at hcall
    rw [Expr.tokens, Expr.unsigned, Expr.tokensOf_eq, Expr.unsignedAll_eq]
    exact hcall

theorem Expr.complete_expression (depth : Nat) (e : Expr) : Expression 0 depth (e.tokens depth) e.unsigned :=
  (e.expression depth).looser (Nat.zero_le _) (Nat.le_refl 5)

theorem Stmt.statement (depth : Nat) (s : Stmt) : Statement depth (s.tokens depth) s.unsigned := by
  have hmem : ∀ {ss : List Stmt} {depth : Nat}, (∀ s ∈ ss, Statement depth (s.tokens depth) s.unsigned) →
      ∀ part ∈ ss.map fun s => (s.tokens depth, s.unsigned), Statement depth part.1 part.2 := by
    intro ss depth h part hpart
    obtain ⟨s, hs, rfl⟩ := List.mem_map.1 hpart
    exact h s hs
  induction s using Stmt.induct generalizing depth with
  | expr e => exact .expr (e.complete_expression depth)
  | set target e => exact .set target (e.complete_expression depth)
  | ret value =>
    cases value with
    | none => exact .leave depth
    | some e => exact .leaveWith (e.complete_expression depth)
  | ifThen test body ih =>
    have hif := Statement.ifThen _ (test.complete_expression depth) (hmem fun s hs => ih s hs (depth + 1))
    rw [List.map_map, List.map_map] at hif
    rw [Stmt.tokens, Stmt.unsigned, Stmt.tokensOf_eq, Stmt.unsignedAll_eq]
    exact hif
  | ifElse test yes no ihy ihn =>
    have hif := Statement.ifElse _ _ (test.complete_expression depth) (hmem fun s hs => ihy s hs (depth + 1))
      (hmem fun s hs => ihn s hs (depth + 1))
    rw [List.map_map, List.map_map, List.map_map, List.map_map] at hif
    rw [Stmt.tokens, Stmt.unsigned, Stmt.tokensOf_eq, Stmt.tokensOf_eq, Stmt.unsignedAll_eq, Stmt.unsignedAll_eq]
    exact hif

theorem Function.locals_derived (f : Function) : Locals f.localTokens f.locals := by
  unfold Function.localTokens
  split
  · rename_i h
    rw [List.isEmpty_iff.1 h]
    exact .missing
  · exact .declared f.locals

theorem Function.declaration (f : Function) : Declaration f.tokens f.unsigned := by
  have hbody : ∀ part ∈ f.body.map fun s => (s.tokens 0, s.unsigned), Statement 0 part.1 part.2 := by
    intro part hpart
    obtain ⟨s, -, rfl⟩ := List.mem_map.1 hpart
    exact s.statement 0
  have hdecl := Declaration.intro f.name f.params f.locals _ f.kind f.locals_derived hbody
  rw [List.map_map, List.map_map] at hdecl
  rw [Function.tokens, Stmt.tokensOf_eq]
  exact hdecl

theorem Program.derives (p : Program) : Derives p.tokens p.unsigned := by
  have hparts : ∀ part ∈ p.map fun f => (f.tokens, f.unsigned), Declaration part.1 part.2 := by
    intro part hpart
    obtain ⟨f, -, rfl⟩ := List.mem_map.1 hpart
    exact f.declaration
  have hder := Derives.intro _ hparts
  rw [List.map_map, List.map_map] at hder
  exact hder

/-! ## The text -/

theorem Word.natAbs_le {value : Word} (h : Int64.minValue < value) : value.toInt.natAbs ≤ Word.maxNat := by
  have hmin : -9223372036854775808 < value.toInt := Int64.lt_iff_toInt_lt.1 h
  have hmax : value.toInt ≤ 9223372036854775807 := value.toInt_le
  unfold Word.maxNat
  omega

theorem Word.natAbs_of_nonneg {value : Word} (h : ¬ value < 0) :
    value.text = value.toInt.natAbs.repr ∧ Int64.ofNat value.toInt.natAbs = value := by
  have hnonneg : 0 ≤ value.toInt := Int64.le_iff_toInt_le.1 (Int64.not_lt.1 h)
  have habs : (value.toInt.natAbs : Int) = value.toInt := Int.natAbs_of_nonneg hnonneg
  constructor
  · rw [Word.text, ← habs]
    rfl
  · rw [← Int64.ofInt_eq_ofNat, habs, Int64.ofInt_toInt]

theorem text_separated {α : Type} (text : α → String) (x y : α) (ys : List α) (rest : List Char) :
    (", ".intercalate ((x :: y :: ys).map text)).toList ++ rest =
      (text x).toList ++ ',' :: ' ' :: ((", ".intercalate ((y :: ys).map text)).toList ++ rest) := by
  simp

/-- Texts with commas between them. -/
theorem scans_separated {α : Type} (text : α → String) (tokens : α → List Placed) {rest : List Char} (depth : Nat)
    {xs : List α} (h : ∀ x ∈ xs, ∀ rest, Lexeme.Ends rest → Scans ((text x).toList ++ rest) (tokens x) rest)
    (hrest : Lexeme.Ends rest) :
    Scans ((", ".intercalate (xs.map text)).toList ++ rest) (separated depth (xs.map tokens)) rest := by
  induction xs with
  | nil => exact .nil rest
  | cons x xs ih =>
    obtain ⟨hx, hxs⟩ := List.forall_mem_cons.1 h
    cases xs with
    | nil => simpa [separated, List.intercalate] using hx rest hrest
    | cons y ys =>
      have htokens : separated depth ((x :: y :: ys).map tokens) =
          tokens x ++ (.comma, depth) :: separated depth ((y :: ys).map tokens) := by
        rw [List.map_cons, List.map_cons, separated, List.intercalate_cons_cons, List.append_assoc]
        rfl
      rw [text_separated, htokens]
      exact (hx _ (Lexeme.ends_cons _ rfl)).append
        (.cons (.single depth (by decide)) (.blank rfl (ih hxs)))

theorem Expr.texts_eq (es : List Expr) : Expr.texts es = es.map Expr.text := by
  induction es with
  | nil => rfl
  | cons e es ih => rw [Expr.texts, ih, List.map_cons]

theorem Expr.text_neg {value : Word} (h : value < 0) (rest : List Char) : (Expr.num value).text.toList ++ rest =
    '(' :: '0' :: ' ' :: '-' :: ' ' :: (value.toInt.natAbs.repr.toList ++ ')' :: rest) := by
  simp [Expr.text, h]

theorem Expr.text_of_nonneg {value : Word} (h : ¬ value < 0) : (Expr.num value).text = value.text := by
  simp [Expr.text, h]

theorem Expr.text_unary (op : UnaryOp) (e : Expr) (rest : List Char) :
    (Expr.unary op e).text.toList ++ rest = op.symbol.toList ++ (e.text.toList ++ rest) := by
  simp [Expr.text]

theorem Expr.text_binary (op : BinaryOp) (a b : Expr) (rest : List Char) : (Expr.binary op a b).text.toList ++ rest =
    '(' :: (a.text.toList ++ ' ' :: (op.symbol.toList ++ ' ' :: (b.text.toList ++ ')' :: rest))) := by
  simp [Expr.text]

theorem Expr.text_call (callee : String) (args : List Expr) (rest : List Char) :
    (Expr.call callee args).text.toList ++ rest =
      callee.toList ++ '(' :: ((", ".intercalate (args.map Expr.text)).toList ++ ')' :: rest) := by
  simp [Expr.text, Expr.texts_eq]

theorem Expr.scans {e : Expr} (h : e.Uses IsIdentifier (Int64.minValue < ·)) (depth : Nat) {rest : List Char}
    (hrest : Lexeme.Ends rest) : Scans (e.text.toList ++ rest) (e.tokens depth) rest := by
  induction e using Expr.induct generalizing depth rest with
  | num value =>
    have hn := Word.natAbs_le h
    rw [Expr.tokens]
    split
    · rename_i hneg
      rw [Expr.text_neg hneg]
      refine .cons (.single _ (by decide)) (.cons (.zero _ _) (.cons (.operator .sub _) ?_))
      exact .cons (.numeral _ hn (Lexeme.ends_cons _ rfl)) (.single _ (by decide))
    · rename_i hneg
      obtain ⟨htext, hvalue⟩ := Word.natAbs_of_nonneg hneg
      have hscan := Scans.numeral depth hn hrest
      rwa [hvalue, ← htext, ← Expr.text_of_nonneg hneg] at hscan
  | var name => exact .identifier depth h hrest
  | unary op e ih =>
    rw [Expr.text_unary]
    exact .cons (.sign op depth) (ih h (depth + 1) hrest)
  | binary op a b iha ihb =>
    rw [Expr.text_binary, Expr.tokens, List.append_assoc]
    refine .cons (.single _ (by decide)) (.append (iha h.1 _ (Lexeme.ends_cons _ rfl)) ?_)
    refine .cons (.operator op _) (.append (ihb h.2 _ (Lexeme.ends_cons _ rfl)) ?_)
    exact .single _ (by decide)
  | call callee args ih =>
    rw [Expr.Uses, Expr.usesAll_iff] at h
    rw [Expr.text_call, Expr.tokens, Expr.tokensOf_eq]
    refine .cons (.identifier depth h.1 (Lexeme.ends_cons _ rfl)) (.cons (.single _ (by decide)) ?_)
    have hargs : ∀ e ∈ args, ∀ rest, Lexeme.Ends rest → Scans (e.text.toList ++ rest) (e.tokens (depth + 1)) rest :=
      fun e he rest hrest => ih e he (h.2 e he) (depth + 1) hrest
    exact .append (scans_separated Expr.text _ _ hargs (Lexeme.ends_cons _ rfl))
      (.single _ (by decide))

theorem scans_indent (level : Nat) {cs rest : List Char} {us : List Placed} (h : Scans cs us rest) :
    Scans ((indent level).toList ++ cs) us rest := by
  refine .blanks _ (fun c hc => ?_) h
  rw [indent, String.toList_join, List.mem_flatMap] at hc
  obtain ⟨step, hstep, hc⟩ := hc
  have htext : indentation.toList = List.replicate 4 ' ' := rfl
  rw [List.eq_of_mem_replicate hstep, htext] at hc
  rw [List.eq_of_mem_replicate hc]
  rfl

/-- An expression through the end of its line. -/
theorem Expr.scans_line {e : Expr} (h : e.Uses IsIdentifier (Int64.minValue < ·)) (depth : Nat)
    (rest : List Char) :
    Scans (e.text.toList ++ ';' :: '\n' :: rest) (e.tokens depth ++ [(.semicolon, depth)]) rest :=
  (e.scans h depth (Lexeme.ends_cons _ rfl)).append
    (.skip (.single depth (by decide)) rfl)

theorem Expr.scans_condition {e : Expr} (h : e.Uses IsIdentifier (Int64.minValue < ·)) (depth : Nat)
    (rest : List Char) :
    Scans ('i' :: 'f' :: ' ' :: '(' :: (e.text.toList ++ ')' :: ' ' :: rest)) (condition depth (e.tokens depth))
      rest := by
  refine .cons (.word "if" depth (by decide) (Lexeme.ends_cons _ rfl)) (.blank rfl ?_)
  refine .cons (.single depth (by decide)) ?_
  refine .append (e.scans h depth (Lexeme.ends_cons _ rfl)) ?_
  exact .skip (.single depth (by decide)) rfl

theorem Stmt.scans_texts (depth level : Nat) {ss : List Stmt}
    (h : ∀ s ∈ ss, ∀ rest, Scans ((s.textAt level).toList ++ rest) (s.tokens depth) rest) (rest : List Char) :
    Scans ((Stmt.textsAt level ss).toList ++ rest) (Stmt.tokensOf depth ss).flatten rest := by
  induction ss with
  | nil => exact .nil rest
  | cons s ss ih =>
    obtain ⟨hs, hss⟩ := List.forall_mem_cons.1 h
    rw [Stmt.textsAt, Stmt.tokensOf, List.flatten_cons, String.toList_append, List.append_assoc]
    exact (hs _).append (ih hss)

theorem Stmt.scans_block (depth level : Nat) {body : List Stmt}
    (h : ∀ s ∈ body, ∀ rest, Scans ((s.textAt (level + 1)).toList ++ rest) (s.tokens (depth + 1)) rest)
    (rest : List Char) :
    Scans ('{' :: '\n' :: ((Stmt.textsAt (level + 1) body).toList ++ ((indent level).toList ++ '}' :: rest)))
      (braced depth (Stmt.tokensOf (depth + 1) body)) rest := by
  refine .cons (.single _ (by decide)) (.blank rfl ?_)
  refine .append (Stmt.scans_texts _ _ h _) (scans_indent level ?_)
  exact .single _ (by decide)

theorem Stmt.text_expr (level : Nat) (e : Expr) (rest : List Char) : ((Stmt.expr e).textAt level).toList ++ rest =
    (indent level).toList ++ (e.text.toList ++ ';' :: '\n' :: rest) := by
  simp [Stmt.textAt]

theorem Stmt.text_set (level : Nat) (target : String) (e : Expr) (rest : List Char) :
    ((Stmt.set target e).textAt level).toList ++ rest =
      (indent level).toList ++ (target.toList ++ ' ' :: '=' :: ' ' :: (e.text.toList ++ ';' :: '\n' :: rest)) := by
  simp [Stmt.textAt]

theorem Stmt.text_ret_some (level : Nat) (e : Expr) (rest : List Char) :
    ((Stmt.ret (some e)).textAt level).toList ++ rest =
      (indent level).toList ++ ("return".toList ++ ' ' :: (e.text.toList ++ ';' :: '\n' :: rest)) := by
  simp [Stmt.textAt]

theorem Stmt.text_ifThen (level : Nat) (test : Expr) (body : List Stmt) (rest : List Char) :
    ((Stmt.ifThen test body).textAt level).toList ++ rest =
      (indent level).toList ++ 'i' :: 'f' :: ' ' :: '(' :: (test.text.toList ++ ')' :: ' ' :: '{' :: '\n' ::
        ((Stmt.textsAt (level + 1) body).toList ++ ((indent level).toList ++ '}' :: '\n' :: rest))) := by
  simp [Stmt.textAt]

theorem Stmt.text_ifElse (level : Nat) (test : Expr) (yes no : List Stmt) (rest : List Char) :
    ((Stmt.ifElse test yes no).textAt level).toList ++ rest =
      (indent level).toList ++ 'i' :: 'f' :: ' ' :: '(' :: (test.text.toList ++ ')' :: ' ' :: '{' :: '\n' ::
        ((Stmt.textsAt (level + 1) yes).toList ++ ((indent level).toList ++ '}' :: ' ' ::
          ("else".toList ++ ' ' :: '{' :: '\n' :: ((Stmt.textsAt (level + 1) no).toList ++
            ((indent level).toList ++ '}' :: '\n' :: rest)))))) := by
  simp [Stmt.textAt]

theorem Stmt.scans {s : Stmt} (h : s.Uses IsIdentifier (Int64.minValue < ·)) (depth level : Nat)
    (rest : List Char) : Scans ((s.textAt level).toList ++ rest) (s.tokens depth) rest := by
  induction s using Stmt.induct generalizing depth level rest with
  | expr e =>
    rw [Stmt.text_expr]
    exact scans_indent level (e.scans_line h depth rest)
  | set target e =>
    rw [Stmt.text_set]
    refine scans_indent level (.cons (.identifier depth h.1 (Lexeme.ends_cons _ rfl)) ?_)
    exact .cons (.assign depth) (e.scans_line h.2 depth rest)
  | ret value =>
    cases value with
    | none =>
      have htext : ((Stmt.ret none).textAt level).toList ++ rest =
          (indent level).toList ++ ("return".toList ++ ';' :: '\n' :: rest) := by simp [Stmt.textAt]
      rw [htext]
      refine scans_indent level (.cons (.word "return" depth (by decide) (Lexeme.ends_cons _ rfl)) ?_)
      exact .skip (.single depth (by decide)) rfl
    | some e =>
      rw [Stmt.text_ret_some]
      refine scans_indent level (.cons (.word "return" depth (by decide) (Lexeme.ends_cons _ rfl)) ?_)
      exact .blank rfl (e.scans_line h depth rest)
  | ifThen test body ih =>
    rw [Stmt.Uses, Stmt.usesAll_iff] at h
    rw [Stmt.text_ifThen, Stmt.tokens]
    refine scans_indent level (.append (test.scans_condition h.1 depth _) ?_)
    exact (Stmt.scans_block depth level (fun s hs rest => ih s hs (h.2 s hs) _ _ rest) _).skip rfl
  | ifElse test yes no ihy ihn =>
    rw [Stmt.Uses, Stmt.usesAll_iff, Stmt.usesAll_iff] at h
    rw [Stmt.text_ifElse, Stmt.tokens, List.append_assoc]
    refine scans_indent level (.append (test.scans_condition h.1 depth _) ?_)
    refine .append (Stmt.scans_block depth level (fun s hs rest => ihy s hs (h.2.1 s hs) _ _ rest) _) (.blank rfl ?_)
    refine .cons (.word "else" depth (by decide) (Lexeme.ends_cons _ rfl)) (.blank rfl ?_)
    exact (Stmt.scans_block depth level (fun s hs rest => ihn s hs (h.2.2 s hs) _ _ rest) _).skip rfl

theorem scans_names {xs : List String} (h : ∀ x ∈ xs, IsIdentifier x) {rest : List Char}
    (hrest : Lexeme.Ends rest) : Scans ((", ".intercalate xs).toList ++ rest) (names xs) rest := by
  have hscan := scans_separated (fun x => x) (fun x => [(.ident x, 0)]) 0
    (fun x hx rest hrest => .identifier 0 (h x hx) hrest) hrest
  rwa [List.map_id'] at hscan

theorem FunctionKind.scans (kind : FunctionKind) {rest : List Char} (hrest : Lexeme.Ends rest) :
    Scans (kind.keyword.toList ++ rest) [(kind.token, 0)] rest := by
  cases kind with
  | func => exact .word "func" 0 (by decide) hrest
  | proc => exact .word "proc" 0 (by decide) hrest

def Function.localsText (f : Function) : String :=
  if f.locals.isEmpty then "" else indentation ++ "var " ++ ", ".intercalate f.locals ++ ";\n"

theorem Function.scans_locals {f : Function} (h : ∀ x ∈ f.locals, IsIdentifier x) (rest : List Char) :
    Scans (f.localsText.toList ++ rest) f.localTokens rest := by
  unfold Function.localsText Function.localTokens
  split
  · exact .nil rest
  · have htext : (indentation ++ "var " ++ ", ".intercalate f.locals ++ ";\n").toList ++ rest =
        (indent 1).toList ++ ("var".toList ++ ' ' ::
          ((", ".intercalate f.locals).toList ++ ';' :: '\n' :: rest)) := by
      simp [indent]
    rw [htext]
    refine scans_indent 1 (.cons (.word "var" 0 (by decide) (Lexeme.ends_cons _ rfl)) (.blank rfl ?_))
    refine .append (scans_names h (Lexeme.ends_cons _ rfl)) ?_
    exact .skip (.single 0 (by decide)) rfl

/-- The text of a function up to its statements. -/
def Function.headText (f : Function) : String :=
  f.kind.keyword ++ " " ++ f.name ++ "(" ++ ", ".intercalate f.params ++ ") \x7b\n" ++ f.localsText

def Function.headTokens (f : Function) : List Placed :=
  (f.kind.token, 0) :: (.ident f.name, 0) :: (.lparen, 0) ::
    (names f.params ++ (.rparen, 0) :: (.lbrace, 0) :: f.localTokens)

theorem Function.text_eq (f : Function) (rest : List Char) : f.text.toList ++ rest =
    f.headText.toList ++ ((Stmt.textsAt 1 f.body).toList ++ '}' :: '\n' :: rest) := by
  simp [Function.text, Function.headText, Function.localsText]

theorem Function.scans_head {f : Function} (hname : IsIdentifier f.name) (hparams : ∀ x ∈ f.params, IsIdentifier x)
    (hlocals : ∀ x ∈ f.locals, IsIdentifier x) (rest : List Char) :
    Scans (f.headText.toList ++ rest) f.headTokens rest := by
  have htext : f.headText.toList ++ rest = f.kind.keyword.toList ++ ' ' :: (f.name.toList ++ '(' ::
      ((", ".intercalate f.params).toList ++ ')' :: ' ' :: '{' :: '\n' :: (f.localsText.toList ++ rest))) := by
    simp [Function.headText]
  rw [htext, Function.headTokens]
  refine .cons (f.kind.scans (Lexeme.ends_cons _ rfl)) (.blank rfl ?_)
  refine .cons (.identifier 0 hname (Lexeme.ends_cons _ rfl)) ?_
  refine .cons (.single 0 (by decide)) ?_
  refine .append (scans_names hparams (Lexeme.ends_cons _ rfl)) ?_
  refine .cons (.single 0 (by decide)) (.blank rfl ?_)
  refine .cons (.single 0 (by decide)) (.blank rfl ?_)
  exact Function.scans_locals hlocals rest

theorem Function.scans {f : Function} (h : f.Uses IsIdentifier (Int64.minValue < ·)) (rest : List Char) :
    Scans (f.text.toList ++ rest) f.tokens rest := by
  obtain ⟨hname, hparams, hlocals, hbody⟩ := h
  have htokens : f.tokens = f.headTokens ++ ((Stmt.tokensOf 0 f.body).flatten ++ [(.rbrace, 0)]) := by
    simp [Function.tokens, Function.headTokens]
  rw [Function.text_eq, htokens]
  refine .append (Function.scans_head hname hparams hlocals _) ?_
  refine .append (Stmt.scans_texts 0 1 (fun s hs rest => s.scans (hbody s hs) 0 1 rest) _) ?_
  exact .skip (.single 0 (by decide)) rfl

theorem Program.text_cons_cons (f g : Function) (p : Program) (rest : List Char) :
    (Program.text (f :: g :: p)).toList ++ rest =
      f.text.toList ++ '\n' :: ((Program.text (g :: p)).toList ++ rest) := by
  simp [Program.text]

theorem Program.scans {p : Program} (h : p.Uses IsIdentifier (Int64.minValue < ·)) (rest : List Char) :
    Scans (p.text.toList ++ rest) p.tokens rest := by
  induction p with
  | nil => exact .nil rest
  | cons f p ih =>
    obtain ⟨hf, hp⟩ := List.forall_mem_cons.1 h
    cases p with
    | nil => simpa [Program.text, Program.tokens] using f.scans hf rest
    | cons g p =>
      rw [Program.text_cons_cons]
      exact .append (f.scans hf _) (.blank rfl (ih hp))

/-- The tokens of the text of a program, through its end. -/
theorem Program.reads_text {p : Program} (h : p.Uses IsIdentifier (Int64.minValue < ·)) :
    ∃ l, (Lexer.ofString p.text).Reads (p.tokens ++ [(.eof, 0)]) l := by
  have hscan := (p.scans h []).append (.eof 0)
  rw [List.append_nil] at hscan
  obtain ⟨loc, hr⟩ := hscan .start
  exact ⟨_, hr⟩

end Wordlang
