import Wordlang.Proofs.Parser.Completeness
import Mathlib.Computability.Language
import Mathlib.Order.CompletePartialOrder

/-!
# The languages of the grammar

Without their places and their trees, the tokens of each construct are the words of a language. What the
productions say of derivations is said here as equations between these languages. In them binary operators have
no levels: an expression is a row of atoms with operators between them.

The derivative of a language by a token holds what may come behind that token.
-/

namespace Wordlang

namespace Token.Kind

def isNumber : Kind → Bool
  | number _ => true
  | _ => false

def isName : Kind → Bool
  | ident _ => true
  | _ => false

def isSign (kind : Kind) : Bool := kind == plus || kind == minus

def isOperator (kind : Kind) : Bool := kind.binaryOp?.isSome

/-- The token declares a function. -/
def declares (kind : Kind) : Bool := kind == kwFunc || kind == kwProc

end Token.Kind

namespace Grammar

open scoped Computability

/-! ## Derivatives -/

/-- Words of a single token. -/
def oneOf (p : Token.Kind → Bool) : Language Token.Kind := {w | ∃ kind, p kind = true ∧ w = [kind]}

def token (kind : Token.Kind) : Language Token.Kind := oneOf (· == kind)

/-- What follows the token in words that start with it. -/
def derivative (kind : Token.Kind) (L : Language Token.Kind) : Language Token.Kind := {w | kind :: w ∈ L}

variable {kind : Token.Kind} {w : List Token.Kind} {p : Token.Kind → Bool} {L M : Language Token.Kind}

theorem mem_derivative : w ∈ derivative kind L ↔ kind :: w ∈ L := Iff.rfl

theorem singleton_mem_oneOf (h : p kind = true) : [kind] ∈ oneOf p := ⟨kind, h, rfl⟩

@[simp] theorem singleton_mem_token (kind : Token.Kind) : [kind] ∈ token kind :=
  singleton_mem_oneOf (beq_self_eq_true kind)

theorem mem_token : w ∈ token kind ↔ w = [kind] := by
  constructor
  · rintro ⟨k, hk, rfl⟩
    rw [eq_of_beq hk]
  · rintro rfl
    exact singleton_mem_token kind

@[simp] theorem cons_mem_oneOf_mul : kind :: w ∈ oneOf p * L ↔ p kind = true ∧ w ∈ L := by
  constructor
  · intro h
    obtain ⟨_, ⟨k, hk, rfl⟩, v, hv, heq⟩ := Language.mem_mul.1 h
    cases heq
    exact ⟨hk, hv⟩
  · rintro ⟨hk, hw⟩
    exact Language.append_mem_mul (singleton_mem_oneOf hk) hw

@[simp] theorem cons_mem_token_mul {k : Token.Kind} : kind :: w ∈ token k * L ↔ kind = k ∧ w ∈ L := by
  rw [token, cons_mem_oneOf_mul, beq_iff_eq]

theorem cons_mem (kind : Token.Kind) (h : w ∈ L) : kind :: w ∈ token kind * L := cons_mem_token_mul.2 ⟨rfl, h⟩

theorem mem_oneOf_mul : w ∈ oneOf p * L ↔ ∃ kind v, p kind = true ∧ v ∈ L ∧ w = kind :: v := by
  constructor
  · intro h
    obtain ⟨_, ⟨k, hk, rfl⟩, v, hv, rfl⟩ := Language.mem_mul.1 h
    exact ⟨k, v, hk, hv, rfl⟩
  · rintro ⟨k, v, hk, hv, rfl⟩
    exact cons_mem_oneOf_mul.2 ⟨hk, hv⟩

theorem mem_token_mul : w ∈ token kind * L ↔ ∃ v ∈ L, w = kind :: v := by
  constructor
  · intro h
    obtain ⟨k, v, hk, hv, rfl⟩ := mem_oneOf_mul.1 h
    exact ⟨v, hv, by rw [eq_of_beq hk]⟩
  · rintro ⟨v, hv, rfl⟩
    exact cons_mem kind hv

theorem mem_mul_token : w ∈ L * token kind ↔ ∃ v ∈ L, w = v ++ [kind] := by
  constructor
  · intro h
    obtain ⟨v, hv, _, hk, rfl⟩ := Language.mem_mul.1 h
    exact ⟨v, hv, by rw [mem_token.1 hk]⟩
  · rintro ⟨v, hv, rfl⟩
    exact Language.append_mem_mul hv (singleton_mem_token kind)

theorem nil_notMem_oneOf (p : Token.Kind → Bool) : [] ∉ oneOf p := by
  rintro ⟨k, -, hk⟩
  cases hk

theorem nil_notMem_mul (h : [] ∉ L) : [] ∉ L * M := by
  intro hmem
  obtain ⟨v, hv, v', -, heq⟩ := Language.mem_mul.1 hmem
  obtain ⟨rfl, -⟩ := List.append_eq_nil_iff.1 heq
  exact h hv

@[simp] theorem derivative_zero (kind : Token.Kind) : derivative kind 0 = 0 := rfl

@[simp] theorem derivative_add : derivative kind (L + M) = derivative kind L + derivative kind M := rfl

/-- A word of the product goes through the first language before it comes to the second. -/
theorem derivative_mul (h : [] ∉ L) : derivative kind (L * M) = derivative kind L * M := by
  ext w
  simp only [mem_derivative, Language.mem_mul]
  constructor
  · rintro ⟨v, hv, v', hv', heq⟩
    cases v with
    | nil => exact absurd hv h
    | cons k v =>
      cases heq
      exact ⟨v, hv, v', hv', rfl⟩
  · rintro ⟨v, hv, v', hv', rfl⟩
    exact ⟨kind :: v, hv, v', hv', rfl⟩

@[simp] theorem derivative_oneOf_mul : derivative kind (oneOf p * L) = if p kind then L else 0 := by
  ext w
  rw [mem_derivative, cons_mem_oneOf_mul]
  cases p kind <;> simp

theorem derivative_oneOf_mul_of (h : p kind = true) : derivative kind (oneOf p * L) = L := by
  rw [derivative_oneOf_mul, if_pos h]

theorem derivative_oneOf_mul_of_not (h : p kind = false) : derivative kind (oneOf p * L) = 0 := by
  rw [derivative_oneOf_mul, h, if_neg Bool.false_ne_true]

@[simp] theorem derivative_token_mul {k : Token.Kind} :
    derivative kind (token k * L) = if kind = k then L else 0 := by
  rw [token, derivative_oneOf_mul]
  by_cases h : kind = k <;> simp [h]

theorem kstar_mul_eq (L M : Language Token.Kind) : L∗ * M = L * (L∗ * M) + M := by
  rw [← mul_assoc, ← Language.mul_self_kstar_comm]
  nth_rewrite 1 [← Language.one_add_kstar_mul_self_eq_kstar]
  rw [add_mul, one_mul, add_comm]

theorem derivative_kstar_mul (h : [] ∉ L) :
    derivative kind (L∗ * M) = derivative kind L * (L∗ * M) + derivative kind M := by
  nth_rewrite 1 [kstar_mul_eq]
  rw [derivative_add, derivative_mul h]

/-! ## Words -/

section

variable {α : Type} {P : List Placed → α → Prop}

/-- The words of a construct. -/
def words (P : List Placed → α → Prop) : Language Token.Kind := {w | ∃ us a, P us a ∧ us.map (·.1) = w}

/-- Words with commas between them, possibly none. -/
def series (L : Language Token.Kind) : Language Token.Kind := 1 + L * (token .comma * L)∗

theorem mem_words {us : List Placed} {a : α} (h : P us a) : us.map (·.1) ∈ words P := ⟨us, a, h, rfl⟩

theorem flatten_mem_kstar {parts : List (List Placed × α)} (h : ∀ x ∈ parts, P x.1 x.2) :
    (parts.map (·.1)).flatten.map (·.1) ∈ (words P)∗ := by
  rw [List.map_flatten, List.map_map]
  refine Language.join_mem_kstar fun w hw => ?_
  obtain ⟨x, hx, rfl⟩ := List.mem_map.1 hw
  exact mem_words (h x hx)

theorem exists_items_of_mem_kstar {ι : Type} {Q : ι → Prop} {f : ι → List Token.Kind}
    (hL : ∀ v ∈ L, ∃ x, Q x ∧ f x = v) (h : w ∈ L∗) : ∃ xs : List ι, (∀ x ∈ xs, Q x) ∧ (xs.map f).flatten = w := by
  obtain ⟨ws, rfl, hws⟩ := Language.mem_kstar.1 h
  clear h
  induction ws with
  | nil => exact ⟨[], by simp, rfl⟩
  | cons v ws ih =>
    obtain ⟨hv, hrest⟩ := List.forall_mem_cons.1 hws
    obtain ⟨x, hx, rfl⟩ := hL v hv
    obtain ⟨xs, hxs, hflat⟩ := ih hrest
    refine ⟨x :: xs, List.forall_mem_cons.2 ⟨hx, hxs⟩, ?_⟩
    rw [List.map_cons, List.flatten_cons, List.flatten_cons, hflat]

theorem exists_parts_of_mem_kstar (h : w ∈ (words P)∗) : ∃ parts : List (List Placed × α),
    (∀ x ∈ parts, P x.1 x.2) ∧ (parts.map (·.1)).flatten.map (·.1) = w := by
  have hwords : ∀ v ∈ words P, ∃ x : List Placed × α, P x.1 x.2 ∧ x.1.map (·.1) = v := by
    rintro v ⟨us, a, ha, rfl⟩
    exact ⟨(us, a), ha, rfl⟩
  obtain ⟨parts, hparts, rfl⟩ := exists_items_of_mem_kstar hwords h
  refine ⟨parts, hparts, ?_⟩
  rw [List.map_flatten, List.map_map]
  rfl

theorem separated_mem_series (depth : Nat) {parts : List (List Placed × α)} (h : ∀ x ∈ parts, P x.1 x.2) :
    (separated depth (parts.map (·.1))).map (·.1) ∈ series (words P) := by
  cases parts with
  | nil => exact .inl rfl
  | cons x parts =>
    obtain ⟨hx, hparts⟩ := List.forall_mem_cons.1 h
    rw [List.map_cons, separated_cons, List.map_append]
    refine .inr (Language.append_mem_mul (mem_words hx) ?_)
    rw [List.map_flatten, List.map_map, List.map_map]
    refine Language.join_mem_kstar fun w hw => ?_
    obtain ⟨y, hy, rfl⟩ := List.mem_map.1 hw
    exact cons_mem_token_mul.2 ⟨rfl, mem_words (hparts y hy)⟩

theorem exists_parts_of_mem_series (depth : Nat) (h : w ∈ series (words P)) : ∃ parts : List (List Placed × α),
    (∀ x ∈ parts, P x.1 x.2) ∧ (separated depth (parts.map (·.1))).map (·.1) = w := by
  rcases h with rfl | h
  · exact ⟨[], by simp, rfl⟩
  · obtain ⟨_, ⟨us, a, ha, rfl⟩, v, hv, rfl⟩ := Language.mem_mul.1 h
    have hbehind : ∀ v ∈ token .comma * words P, ∃ x : List Placed × α,
        P x.1 x.2 ∧ ((.comma, depth) :: x.1).map (·.1) = v := by
      intro v hv
      obtain ⟨_, ⟨us, a, ha, rfl⟩, rfl⟩ := mem_token_mul.1 hv
      exact ⟨(us, a), ha, rfl⟩
    obtain ⟨parts, hparts, rfl⟩ := exists_items_of_mem_kstar hbehind hv
    refine ⟨(us, a) :: parts, List.forall_mem_cons.2 ⟨ha, hparts⟩, ?_⟩
    rw [List.map_cons, separated_cons, List.map_append, List.map_flatten, List.map_map, List.map_map]
    rfl

end

/-! ## Expressions -/

open Token.Kind (isNumber isName isSign isOperator declares)

def atoms (depth : Nat) : Language Token.Kind := words (Expression 5 depth)

def expressions (depth : Nat) : Language Token.Kind := words (Expression 0 depth)

theorem isSign_token (op : UnaryOp) : isSign op.token = true := by cases op <;> rfl

theorem exists_of_isSign (h : isSign kind = true) : ∃ op : UnaryOp, kind = op.token := by
  rcases Bool.or_eq_true_iff.1 h with h | h
  · exact ⟨.identity, eq_of_beq h⟩
  · exact ⟨.negate, eq_of_beq h⟩

theorem atoms_eq (depth : Nat) : atoms depth =
    oneOf isNumber + oneOf isName * (1 + token .lparen * (series (expressions (depth + 1)) * token .rparen)) +
      token .lparen * (expressions (depth + 1) * token .rparen) + oneOf isSign * atoms (depth + 1) := by
  ext w
  constructor
  · rintro ⟨us, e, h, rfl⟩
    generalize hlevel : 5 = level at h
    cases h with
    | number value => exact .inl (.inl (.inl (singleton_mem_oneOf rfl)))
    | name x => exact .inl (.inl (.inr (cons_mem_oneOf_mul.2 ⟨rfl, .inl rfl⟩)))
    | call callee args hargs =>
      have hseries := separated_mem_series (depth + 1) hargs
      refine .inl (.inl (.inr (cons_mem_oneOf_mul.2 ⟨rfl, .inr (cons_mem_token_mul.2 ⟨rfl, ?_⟩)⟩)))
      exact mem_mul_token.2 ⟨_, hseries, List.map_append⟩
    | group h =>
      refine .inl (.inr (cons_mem_token_mul.2 ⟨rfl, ?_⟩))
      exact mem_mul_token.2 ⟨_, mem_words h, List.map_append⟩
    | sign op h => exact .inr (cons_mem_oneOf_mul.2 ⟨isSign_token op, mem_words h⟩)
    -- There is no level above that of atoms, and no operator on it.
    | tighter hlt _ => omega
    | operation op hop _ _ =>
      have hlt := op.precedence_lt
      rw [mem_operators_iff.1 hop] at hlt
      omega
  · rintro (((⟨k, hk, rfl⟩ | h) | h) | h)
    · cases k with
      | number value => exact mem_words (Expression.number depth value)
      | _ => cases hk
    · obtain ⟨k, v, hk, hv, rfl⟩ := mem_oneOf_mul.1 h
      cases k with
      | ident x =>
        rcases hv with rfl | hv
        · exact mem_words (Expression.name depth x)
        · obtain ⟨_, hinside, rfl⟩ := mem_token_mul.1 hv
          obtain ⟨_, hseries, rfl⟩ := mem_mul_token.1 hinside
          obtain ⟨args, hargs, rfl⟩ := exists_parts_of_mem_series (depth + 1) hseries
          exact ⟨_, _, Expression.call x args hargs, by simp⟩
      | _ => cases hk
    · obtain ⟨v, hv, rfl⟩ := mem_token_mul.1 h
      obtain ⟨_, ⟨us, e, he, rfl⟩, rfl⟩ := mem_mul_token.1 hv
      exact ⟨_, _, Expression.group he, by simp⟩
    · obtain ⟨k, _, hk, ⟨us, e, he, rfl⟩, rfl⟩ := mem_oneOf_mul.1 h
      obtain ⟨op, rfl⟩ := exists_of_isSign hk
      exact mem_words (Expression.sign op he)

/-- One more operand goes to the operators of an expression that are loose enough, and so takes its place at the end
of the row. -/
theorem Expression.snoc {level depth : Nat} {us vs : List Placed} {e f : Expr} (h : Expression level depth us e)
    (hf : Expression 5 depth vs f) (op : BinaryOp) (hop : level ≤ op.precedence) :
    ∃ e', Expression level depth (us ++ (op.token, depth) :: vs) e' := by
  have hlt := op.precedence_lt
  induction h with
  | number | name | call | group | sign => omega
  | @tighter level depth us e hlevel h ih =>
    by_cases heq : level = op.precedence
    · subst heq
      exact ⟨_, .binary op (.tighter hlevel h) (hf.looser hlt (Nat.le_refl 5))⟩
    · obtain ⟨e', he'⟩ := ih hf (by omega)
      exact ⟨e', .tighter hlevel he'⟩
  | @operation level depth us us' left right op' hop' hleft hright _ ih =>
    by_cases heq : level = op.precedence
    · subst heq
      exact ⟨_, .binary op (.operation op' hop' hleft hright) (hf.looser hlt (Nat.le_refl 5))⟩
    -- The new operator binds more tightly than the last one, so it goes into the right operand of that.
    · obtain ⟨right', hright'⟩ := ih hf (by omega)
      rw [List.append_assoc, List.cons_append]
      exact ⟨_, .operation op' hop' hleft hright'⟩

theorem isOperator_token (op : BinaryOp) : isOperator op.token = true := by
  rw [isOperator, BinaryOp.binaryOp?_token]
  rfl

theorem exists_of_isOperator (h : isOperator kind = true) : ∃ op : BinaryOp, kind = op.token := by
  obtain ⟨op, hop⟩ := Option.isSome_iff_exists.1 h
  exact ⟨op, BinaryOp.eq_token hop⟩

/-- An expression is a row of atoms with operators between them. -/
theorem Expression.mem_row {level depth : Nat} {us : List Placed} {e : Expr} (h : Expression level depth us e) :
    us.map (·.1) ∈ atoms depth * (oneOf isOperator * atoms depth)∗ := by
  have hatom : ∀ {depth : Nat} {us : List Placed} {e : Expr}, Expression 5 depth us e →
      us.map (·.1) ∈ atoms depth * (oneOf isOperator * atoms depth)∗ := by
    intro depth us e h
    rw [← List.append_nil (us.map _)]
    exact Language.append_mem_mul (mem_words h) (Language.nil_mem_kstar _)
  induction h with
  | number depth value => exact hatom (.number depth value)
  | name depth x => exact hatom (.name depth x)
  | call callee args hargs _ => exact hatom (.call callee args hargs)
  | group h _ => exact hatom (.group h)
  | sign op h _ => exact hatom (.sign op h)
  | tighter _ _ ih => exact ih
  | @operation level depth us vs left right op _ _ _ hleft hright =>
    rw [List.map_append, List.map_cons]
    obtain ⟨a, ha, row, hrow, hus⟩ := Language.mem_mul.1 hleft
    have hoperand := cons_mem_oneOf_mul.2 ⟨isOperator_token op, hright⟩
    have hle : oneOf isOperator * (atoms depth * (oneOf isOperator * atoms depth)∗) ≤
        (oneOf isOperator * atoms depth)∗ := by
      rw [← mul_assoc]
      exact mul_kstar_le_kstar
    have hall := Language.append_mem_mul hrow (hle hoperand)
    rw [kstar_mul_kstar] at hall
    rw [← hus, List.append_assoc]
    exact Language.append_mem_mul ha hall

theorem expressions_eq (depth : Nat) :
    expressions depth = atoms depth * (oneOf isOperator * atoms depth)∗ := by
  apply le_antisymm
  · rintro w ⟨us, e, h, rfl⟩
    exact h.mem_row
  -- The row is built up from the left, one operand at a time.
  · refine mul_kstar_le ?_ ?_
    · rintro w ⟨us, e, h, rfl⟩
      exact mem_words (h.looser (Nat.zero_le 5) (Nat.le_refl 5))
    · intro w h
      obtain ⟨_, ⟨us, e, he, rfl⟩, v, hv, rfl⟩ := Language.mem_mul.1 h
      obtain ⟨k, _, hk, ⟨vs, f, hf, rfl⟩, rfl⟩ := mem_oneOf_mul.1 hv
      obtain ⟨op, rfl⟩ := exists_of_isOperator hk
      obtain ⟨e', he'⟩ := he.snoc hf op (Nat.zero_le _)
      exact ⟨_, e', he', by simp⟩

/-! ## Statements and programs -/

def statements (depth : Nat) : Language Token.Kind := words (Statement depth)

def blocks (depth : Nat) : Language Token.Kind := token .lbrace * ((statements (depth + 1))∗ * token .rbrace)

def declarations : Language Token.Kind := words Declaration

theorem braced_mem_blocks {depth : Nat} {body : List (List Placed × Stmt)}
    (h : ∀ s ∈ body, Statement (depth + 1) s.1 s.2) : (braced depth (body.map (·.1))).map (·.1) ∈ blocks depth :=
  cons_mem_token_mul.2 ⟨rfl, mem_mul_token.2 ⟨_, flatten_mem_kstar h, List.map_append⟩⟩

theorem exists_body_of_mem_blocks {depth : Nat} (h : w ∈ blocks depth) : ∃ body : List (List Placed × Stmt),
    (∀ s ∈ body, Statement (depth + 1) s.1 s.2) ∧ (braced depth (body.map (·.1))).map (·.1) = w := by
  obtain ⟨_, hinside, rfl⟩ := mem_token_mul.1 h
  obtain ⟨_, hbody, rfl⟩ := mem_mul_token.1 hinside
  obtain ⟨body, hstmts, rfl⟩ := exists_parts_of_mem_kstar hbody
  exact ⟨body, hstmts, by simp [braced]⟩

theorem condition_mem {depth : Nat} {us : List Placed} {e : Expr} (he : Expression 0 depth us e) (h : w ∈ L) :
    (condition depth us).map (·.1) ++ w ∈
      token .kwIf * (token .lparen * (expressions depth * (token .rparen * L))) := by
  have htest := Language.append_mem_mul (mem_words he) (cons_mem .rparen h)
  have hif := cons_mem .kwIf (cons_mem .lparen htest)
  have heq : (condition depth us).map (·.1) ++ w =
      .kwIf :: .lparen :: (us.map (·.1) ++ .rparen :: w) := by simp [condition]
  rw [heq]
  exact hif

theorem exists_of_mem_condition {depth : Nat}
    (h : w ∈ token .kwIf * (token .lparen * (expressions depth * (token .rparen * L)))) :
    ∃ us e v, Expression 0 depth us e ∧ v ∈ L ∧ (condition depth us).map (·.1) ++ v = w := by
  obtain ⟨_, hopen, rfl⟩ := mem_token_mul.1 h
  obtain ⟨_, htest, rfl⟩ := mem_token_mul.1 hopen
  obtain ⟨_, ⟨us, e, he, rfl⟩, _, hclose, rfl⟩ := Language.mem_mul.1 htest
  obtain ⟨v, hv, rfl⟩ := mem_token_mul.1 hclose
  exact ⟨us, e, v, he, hv, by simp [condition]⟩

theorem statements_eq (depth : Nat) : statements depth =
    expressions depth * token .semicolon +
      oneOf isName * (token .assign * (expressions depth * token .semicolon)) +
      token .kwReturn * ((1 + expressions depth) * token .semicolon) +
      token .kwIf * (token .lparen * (expressions depth * (token .rparen *
        (blocks depth * (1 + token .kwElse * blocks depth))))) := by
  ext w
  constructor
  · rintro ⟨us, s, h, rfl⟩
    cases h with
    | expr he => exact .inl (.inl (.inl (mem_mul_token.2 ⟨_, mem_words he, List.map_append⟩)))
    | set target he =>
      refine .inl (.inl (.inr (cons_mem_oneOf_mul.2 ⟨rfl, cons_mem_token_mul.2 ⟨rfl, ?_⟩⟩)))
      exact mem_mul_token.2 ⟨_, mem_words he, List.map_append⟩
    | leave => exact .inl (.inr (cons_mem_token_mul.2 ⟨rfl, mem_mul_token.2 ⟨[], .inl rfl, rfl⟩⟩))
    | leaveWith he =>
      exact .inl (.inr (cons_mem_token_mul.2 ⟨rfl, mem_mul_token.2 ⟨_, .inr (mem_words he), List.map_append⟩⟩))
    | ifThen body he hbody =>
      have hempty : [] ∈ 1 + token .kwElse * blocks depth := .inl rfl
      have hif := condition_mem he (Language.append_mem_mul (braced_mem_blocks hbody) hempty)
      rw [List.append_nil] at hif
      rw [List.map_append]
      exact .inr hif
    | ifElse yes no he hyes hno =>
      have helse : _ ∈ 1 + token .kwElse * blocks depth := .inr (cons_mem .kwElse (braced_mem_blocks hno))
      have hif := condition_mem he (Language.append_mem_mul (braced_mem_blocks hyes) helse)
      rw [List.map_append, List.map_append, List.append_assoc]
      exact .inr hif
  · rintro (((h | h) | h) | h)
    · obtain ⟨_, ⟨us, e, he, rfl⟩, rfl⟩ := mem_mul_token.1 h
      exact ⟨_, _, Statement.expr he, by simp⟩
    · obtain ⟨k, _, hk, hset, rfl⟩ := mem_oneOf_mul.1 h
      obtain ⟨_, hvalue, rfl⟩ := mem_token_mul.1 hset
      obtain ⟨_, ⟨us, e, he, rfl⟩, rfl⟩ := mem_mul_token.1 hvalue
      cases k with
      | ident target => exact ⟨_, _, Statement.set target he, by simp⟩
      | _ => cases hk
    · obtain ⟨_, hvalue, rfl⟩ := mem_token_mul.1 h
      obtain ⟨_, rfl | ⟨us, e, he, rfl⟩, rfl⟩ := mem_mul_token.1 hvalue
      · exact mem_words (Statement.leave depth)
      · exact ⟨_, _, Statement.leaveWith he, by simp⟩
    · obtain ⟨us, e, v, he, hblocks, rfl⟩ := exists_of_mem_condition h
      obtain ⟨_, hyes, _, hno, rfl⟩ := Language.mem_mul.1 hblocks
      obtain ⟨yes, hyesStmts, rfl⟩ := exists_body_of_mem_blocks hyes
      rcases hno with rfl | helse
      · exact ⟨_, _, Statement.ifThen yes he hyesStmts, by simp⟩
      · obtain ⟨_, hblock, rfl⟩ := mem_token_mul.1 helse
        obtain ⟨no, hnoStmts, rfl⟩ := exists_body_of_mem_blocks hblock
        exact ⟨_, _, Statement.ifElse yes no he hyesStmts hnoStmts, by simp⟩

/-! A program is a sequence of declarations. -/

theorem isName_eq_words : oneOf isName = words fun us (x : String) => us = [(.ident x, 0)] := by
  ext w
  constructor
  · rintro ⟨k, hk, rfl⟩
    cases k with
    | ident x => exact ⟨_, x, rfl, rfl⟩
    | _ => cases hk
  · rintro ⟨_, x, rfl, rfl⟩
    exact singleton_mem_oneOf rfl

theorem names_mem_series (xs : List String) : (names xs).map (·.1) ∈ series (oneOf isName) := by
  have hparts : ∀ x ∈ xs.map fun x => ([(Token.Kind.ident x, 0)], x), x.1 = [(.ident x.2, 0)] := by simp
  have h := separated_mem_series (P := fun us (x : String) => us = [(.ident x, 0)]) 0 hparts
  rw [List.map_map] at h
  rw [isName_eq_words]
  exact h

theorem exists_names_of_mem_series (h : w ∈ series (oneOf isName)) : ∃ xs, (names xs).map (·.1) = w := by
  rw [isName_eq_words] at h
  obtain ⟨parts, hparts, rfl⟩ := exists_parts_of_mem_series 0 h
  refine ⟨parts.map (·.2), ?_⟩
  have hmap : parts.map (·.1) = (parts.map (·.2)).map fun x => [(Token.Kind.ident x, 0)] := by
    rw [List.map_map]
    exact List.map_congr_left hparts
  rw [hmap]
  rfl

def localLists : Language Token.Kind := 1 + token .kwVar * (series (oneOf isName) * token .semicolon)

theorem localLists_eq_words : localLists = words Locals := by
  ext w
  constructor
  · rintro (rfl | h)
    · exact mem_words Locals.missing
    · obtain ⟨_, hlist, rfl⟩ := mem_token_mul.1 h
      obtain ⟨_, hnames, rfl⟩ := mem_mul_token.1 hlist
      obtain ⟨xs, rfl⟩ := exists_names_of_mem_series hnames
      exact ⟨_, _, Locals.declared xs, by simp⟩
  · rintro ⟨us, xs, h, rfl⟩
    cases h with
    | missing => exact .inl rfl
    | declared => exact .inr (cons_mem .kwVar (mem_mul_token.2 ⟨_, names_mem_series xs, List.map_append⟩))

theorem declares_token (kind : FunctionKind) : declares kind.token = true := by cases kind <;> rfl

theorem exists_of_declares (h : declares kind = true) : ∃ f : FunctionKind, kind = f.token := by
  rcases Bool.or_eq_true_iff.1 h with h | h
  · exact ⟨.func, eq_of_beq h⟩
  · exact ⟨.proc, eq_of_beq h⟩

theorem declarations_eq : declarations =
    oneOf declares * (oneOf isName * (token .lparen * (series (oneOf isName) * (token .rparen *
      (token .lbrace * (localLists * ((statements 0)∗ * token .rbrace))))))) := by
  ext w
  constructor
  · rintro ⟨_, f, ⟨name, params, locals, body, kind, hlocals, hbody⟩, rfl⟩
    have hbraces := Language.append_mem_mul (mem_words hlocals)
      (mem_mul_token.2 ⟨_, flatten_mem_kstar hbody, rfl⟩ : _ ∈ (statements 0)∗ * token .rbrace)
    rw [← localLists_eq_words] at hbraces
    have hparams := Language.append_mem_mul (names_mem_series params) (cons_mem .rparen (cons_mem .lbrace hbraces))
    have hall := cons_mem_oneOf_mul.2 ⟨declares_token kind,
      cons_mem_oneOf_mul.2 ⟨(rfl : isName (.ident name) = true), cons_mem .lparen hparams⟩⟩
    simpa only [List.map_cons, List.map_append, List.map_nil] using hall
  · intro h
    obtain ⟨k, _, hk, hname, rfl⟩ := mem_oneOf_mul.1 h
    obtain ⟨kind, rfl⟩ := exists_of_declares hk
    obtain ⟨k', _, hk', hopen, rfl⟩ := mem_oneOf_mul.1 hname
    obtain ⟨_, hparams, rfl⟩ := mem_token_mul.1 hopen
    obtain ⟨_, hnames, _, hclose, rfl⟩ := Language.mem_mul.1 hparams
    obtain ⟨params, rfl⟩ := exists_names_of_mem_series hnames
    obtain ⟨_, hbrace, rfl⟩ := mem_token_mul.1 hclose
    obtain ⟨_, hinside, rfl⟩ := mem_token_mul.1 hbrace
    rw [localLists_eq_words] at hinside
    obtain ⟨_, ⟨ls, locals, hlocals, rfl⟩, _, hbody, rfl⟩ := Language.mem_mul.1 hinside
    obtain ⟨_, hstmts, rfl⟩ := mem_mul_token.1 hbody
    obtain ⟨body, hstmt, rfl⟩ := exists_parts_of_mem_kstar hstmts
    cases k' with
    | ident name => exact ⟨_, _, Declaration.intro name params locals body kind hlocals hstmt, by simp⟩
    | _ => cases hk'

theorem derives_eq : words Derives = declarations∗ := by
  ext w
  constructor
  · rintro ⟨_, p, ⟨parts, hparts⟩, rfl⟩
    exact flatten_mem_kstar hparts
  · intro h
    obtain ⟨parts, hparts, rfl⟩ := exists_parts_of_mem_kstar h
    exact mem_words (Derives.intro parts hparts)

/-! ## First tokens -/

theorem nil_notMem_words {α : Type} {P : List Placed → α → Prop} (h : ∀ us a, P us a → us ≠ []) :
    [] ∉ words P := by
  rintro ⟨us, a, ha, hus⟩
  exact h us a ha (List.map_eq_nil_iff.1 hus)

theorem nil_notMem_atoms (depth : Nat) : [] ∉ atoms depth := by
  refine nil_notMem_words fun us e h => ?_
  obtain ⟨u, vs, rfl, -⟩ := h.opens
  exact List.cons_ne_nil u vs

theorem nil_notMem_expressions (depth : Nat) : [] ∉ expressions depth := by
  rw [expressions_eq]
  exact nil_notMem_mul (nil_notMem_atoms depth)

theorem nil_notMem_statements (depth : Nat) : [] ∉ statements depth := by
  refine nil_notMem_words fun us s h => ?_
  cases h <;> simp [condition]

theorem nil_notMem_declarations : [] ∉ declarations := by
  rw [declarations_eq]
  exact nil_notMem_mul (nil_notMem_oneOf _)

theorem derivative_atoms_mul (depth : Nat) : derivative kind (atoms depth * L) =
    (if isNumber kind then L else 0) +
    (if isName kind then token .lparen * (series (expressions (depth + 1)) * (token .rparen * L)) + L else 0) +
    (if kind = .lparen then expressions (depth + 1) * (token .rparen * L) else 0) +
    (if isSign kind then atoms (depth + 1) * L else 0) := by
  rw [atoms_eq]
  simp only [add_mul, mul_assoc, one_mul, derivative_add, derivative_oneOf_mul, derivative_token_mul]
  rw [add_comm L]

theorem derivative_number (depth : Nat) (value : Word) : derivative (.number value) (atoms depth * L) = L := by
  simp [derivative_atoms_mul, isNumber, isName, isSign]

theorem derivative_ident (depth : Nat) (name : String) : derivative (.ident name) (atoms depth * L) =
    token .lparen * (series (expressions (depth + 1)) * (token .rparen * L)) + L := by
  simp [derivative_atoms_mul, isNumber, isName, isSign]

theorem derivative_lparen (depth : Nat) :
    derivative .lparen (atoms depth * L) = expressions (depth + 1) * (token .rparen * L) := by
  simp [derivative_atoms_mul, isNumber, isName, isSign]

theorem derivative_sign (depth : Nat) (op : UnaryOp) :
    derivative op.token (atoms depth * L) = atoms (depth + 1) * L := by
  cases op <;> simp [derivative_atoms_mul, UnaryOp.token, isNumber, isName, isSign]

theorem derivative_atoms_mul_eq_zero (depth : Nat) (h : kind.opensExpression = false) :
    derivative kind (atoms depth * L) = 0 := by
  cases kind with
  | number | ident | lparen | plus | minus => cases h
  | _ => simp [derivative_atoms_mul, isNumber, isName, isSign]

/-- No expression starts with another token. -/
theorem derivative_expressions_mul (depth : Nat) (h : kind.opensExpression = false) :
    derivative kind (expressions depth * L) = 0 := by
  rw [expressions_eq, mul_assoc, derivative_atoms_mul_eq_zero depth h]

theorem derivative_statements_mul (depth : Nat) : derivative kind (statements depth * L) =
    derivative kind (expressions depth * (token .semicolon * L)) +
    (if isName kind then token .assign * (expressions depth * (token .semicolon * L)) else 0) +
    (if kind = .kwReturn then expressions depth * (token .semicolon * L) + token .semicolon * L else 0) +
    (if kind = .kwIf then token .lparen * (expressions depth * (token .rparen *
      (blocks depth * (token .kwElse * (blocks depth * L) + L)))) else 0) := by
  rw [statements_eq]
  simp only [add_mul, mul_assoc, one_mul, derivative_add, derivative_oneOf_mul, derivative_token_mul]
  rw [add_comm (token .semicolon * L), add_comm L]

theorem derivative_return (depth : Nat) : derivative .kwReturn (statements depth * L) =
    expressions depth * (token .semicolon * L) + token .semicolon * L := by
  rw [derivative_statements_mul, derivative_expressions_mul depth rfl]
  simp [isName]

theorem derivative_if (depth : Nat) : derivative .kwIf (statements depth * L) =
    token .lparen * (expressions depth * (token .rparen *
      (blocks depth * (token .kwElse * (blocks depth * L) + L)))) := by
  rw [derivative_statements_mul, derivative_expressions_mul depth rfl]
  simp [isName]

/-- A name in front of `=` is the target of an assignment. -/
theorem derivative_target (depth : Nat) (name : String) :
    derivative .assign (derivative (.ident name) (statements depth * L)) =
      expressions depth * (token .semicolon * L) := by
  have hnil : [] ∉ oneOf isOperator * atoms depth := nil_notMem_mul (nil_notMem_oneOf _)
  rw [derivative_statements_mul, expressions_eq, mul_assoc, derivative_ident]
  simp only [derivative_add, derivative_token_mul, derivative_kstar_mul hnil, mul_assoc, derivative_oneOf_mul]
  simp [isName, isOperator, Token.Kind.binaryOp?]

/-- A name in front of another token starts an expression. -/
theorem derivative_operand (depth : Nat) (name : String) (h : kind ≠ .assign) :
    derivative kind (derivative (.ident name) (statements depth * L)) =
      derivative kind (derivative (.ident name) (expressions depth * (token .semicolon * L))) := by
  simp only [derivative_statements_mul, isName, if_true, reduceCtorEq, if_false, add_zero, derivative_add,
    derivative_token_mul, h]

/-- So does every token that starts no other statement. -/
theorem derivative_statements_mul_of_not (depth : Nat)
    (h : (isName kind || kind == .kwReturn || kind == .kwIf) = false) : derivative kind (statements depth * L) =
      derivative kind (expressions depth * (token .semicolon * L)) := by
  simp only [Bool.or_eq_false_iff, beq_eq_false_iff_ne] at h
  obtain ⟨⟨hname, hreturn⟩, hif⟩ := h
  rw [derivative_statements_mul]
  simp [hname, hreturn, hif]

end Grammar

end Wordlang
