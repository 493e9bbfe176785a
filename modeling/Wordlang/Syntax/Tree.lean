import Wordlang.Word
import Wordlang.Syntax.Operator

/-!
# Programs as trees

A program is a list of functions. A function's body is a list of statements over its parameters, its
locals and the globals of the environment. An expression has a height, and equality of trees is decidable.
-/

namespace Wordlang

/-- A `func` produces a value, a `proc` does not. -/
inductive FunctionKind
  | func
  | proc
  deriving DecidableEq, Repr

def FunctionKind.keyword : FunctionKind → String
  | func => "func"
  | proc => "proc"

inductive Expr
  | num (value : Word)
  | var (name : String)
  | unary (op : UnaryOp) (operand : Expr)
  | binary (op : BinaryOp) (left right : Expr)
  | call (callee : String) (args : List Expr)
  deriving Repr

inductive Stmt
  | expr (e : Expr)
  | set (target : String) (value : Expr)
  | ret (value : Option Expr)
  | ifThen (test : Expr) (body : List Stmt)
  | ifElse (test : Expr) (yes no : List Stmt)
  deriving Repr

structure Function where
  name : String
  params : List String
  locals : List String
  body : List Stmt
  kind : FunctionKind
  deriving Repr

abbrev Program := List Function

/-! ## Height -/

mutual

/-- The height of a tree: 1 for a leaf, one more than its highest part otherwise. -/
def Expr.height : Expr → Nat
  | .num _ => 1
  | .var _ => 1
  | .unary _ operand => operand.height + 1
  | .binary _ left right => max left.height right.height + 1
  | .call _ args => Expr.maxHeight args + 1

def Expr.maxHeight : List Expr → Nat
  | [] => 0
  | e :: es => max e.height (Expr.maxHeight es)

end

/-! ## Decidable equality -/

mutual

def Expr.same : Expr → Expr → Bool
  | .num m, .num n => m = n
  | .var x, .var y => x = y
  | .unary o a, .unary p b => o = p && a.same b
  | .binary o a b, .binary p c d => o = p && a.same c && b.same d
  | .call f as, .call g bs => f = g && Expr.sameList as bs
  | _, _ => false

def Expr.sameList : List Expr → List Expr → Bool
  | [], [] => true
  | a :: as, b :: bs => a.same b && Expr.sameList as bs
  | _, _ => false

end

mutual

theorem Expr.same_iff : ∀ a b : Expr, a.same b = true ↔ a = b
  | .num _, b => by cases b <;> simp [Expr.same]
  | .var _, b => by cases b <;> simp [Expr.same]
  | .unary _ a, b => by cases b <;> simp [Expr.same, Expr.same_iff a]
  | .binary _ a c, b => by cases b <;> simp [Expr.same, Expr.same_iff a, Expr.same_iff c, and_assoc]
  | .call _ as, b => by cases b <;> simp [Expr.same, Expr.sameList_iff as]

theorem Expr.sameList_iff : ∀ as bs : List Expr, Expr.sameList as bs = true ↔ as = bs
  | [], bs => by cases bs <;> simp [Expr.sameList]
  | a :: as, bs => by cases bs <;> simp [Expr.sameList, Expr.same_iff a, Expr.sameList_iff as]

end

instance : DecidableEq Expr := fun a b => decidable_of_iff _ (Expr.same_iff a b)

mutual

def Stmt.same : Stmt → Stmt → Bool
  | .expr a, .expr b => a = b
  | .set x a, .set y b => x = y && a = b
  | .ret a, .ret b => a = b
  | .ifThen a s, .ifThen b t => a = b && Stmt.sameList s t
  | .ifElse a s t, .ifElse b u v => a = b && Stmt.sameList s u && Stmt.sameList t v
  | _, _ => false

def Stmt.sameList : List Stmt → List Stmt → Bool
  | [], [] => true
  | a :: as, b :: bs => a.same b && Stmt.sameList as bs
  | _, _ => false

end

mutual

theorem Stmt.same_iff : ∀ a b : Stmt, a.same b = true ↔ a = b
  | .expr _, b => by cases b <;> simp [Stmt.same]
  | .set _ _, b => by cases b <;> simp [Stmt.same]
  | .ret _, b => by cases b <;> simp [Stmt.same]
  | .ifThen _ s, b => by cases b <;> simp [Stmt.same, Stmt.sameList_iff s]
  | .ifElse _ s t, b => by
    cases b <;> simp [Stmt.same, Stmt.sameList_iff s, Stmt.sameList_iff t, and_assoc]

theorem Stmt.sameList_iff : ∀ as bs : List Stmt, Stmt.sameList as bs = true ↔ as = bs
  | [], bs => by cases bs <;> simp [Stmt.sameList]
  | a :: as, bs => by cases bs <;> simp [Stmt.sameList, Stmt.same_iff a, Stmt.sameList_iff as]

end

instance : DecidableEq Stmt := fun a b => decidable_of_iff _ (Stmt.same_iff a b)

deriving instance DecidableEq for Function

end Wordlang
