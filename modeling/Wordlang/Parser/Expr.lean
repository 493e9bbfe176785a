import Wordlang.Syntax.Tree
import Wordlang.Parser.Basic

/-!
# Parsing expressions: `parse_expression`, `parse_binary`, `parse_atom`, `parse_arguments`

Operators are parsed by climbing: an operand is followed by all operators that bind at least as tightly as
the level asks for, and the right operand of each is parsed one level tighter, so that operators of one
level fold to the left.

Parentheses, signs and argument lists each take one level of nesting; `room` counts the levels left. The
height of a whole expression is bounded by the levels left around it as well, because its text puts every
binary node in parentheses. The height is counted while the tree grows: each node adds one to the heights that
came with its parts.
-/

namespace Wordlang

/-- An expression with the height of its tree. -/
structure Measured where
  expr : Expr
  height : Nat
  height_eq : height = expr.height

namespace Measured

def num (value : Word) : Measured := ⟨.num value, 1, rfl⟩

def var (name : String) : Measured := ⟨.var name, 1, rfl⟩

def unary (op : UnaryOp) (operand : Measured) : Measured :=
  ⟨.unary op operand.expr, operand.height + 1, by rw [operand.height_eq, Expr.height]⟩

def binary (op : BinaryOp) (left right : Measured) : Measured :=
  ⟨.binary op left.expr right.expr, max left.height right.height + 1, by
    rw [left.height_eq, right.height_eq, Expr.height]⟩

/-- The height of the highest argument, 0 if there is none. -/
def highest (args : List Measured) : Nat := args.foldl (fun height arg => max height arg.height) 0

theorem foldl_max_height (args : List Measured) (height : Nat) :
    args.foldl (fun height arg => max height arg.height) height =
      max height (Expr.maxHeight (args.map (·.expr))) := by
  induction args generalizing height with
  | nil => simp [Expr.maxHeight]
  | cons arg args ih => rw [List.foldl_cons, ih, List.map_cons, Expr.maxHeight, arg.height_eq, Nat.max_assoc]

def call (callee : String) (args : List Measured) : Measured :=
  ⟨.call callee (args.map (·.expr)), highest args + 1, by
    rw [highest, foldl_max_height, Nat.zero_max, Expr.height]⟩

end Measured

namespace ParseM

/-- An atom followed by operators of at least the given level (`parse_binary`). -/
def binary (atom : ParseM (Option Measured)) (level : Nat) : ParseM (Option Measured) := do
  match ← atom with
  | none => return none
  | some e => some <$> upTo (fun left => do
      let t ← next
      match t.kind.binaryOp? with
      | some op =>
        if h : level ≤ op.precedence then
          have := op.precedence_lt
          let right ← required (.afterOperator op) (binary atom (op.precedence + 1))
          let e := Measured.binary op left right
          if maxNesting + 1 < e.height then fail .expressionTooDeep t.loc else return some e
        else
          revert t
          return none
      | none =>
        revert t
        return none) (maxNesting + 1) e
termination_by 5 - level

/-- The arguments of a call, behind its opening parenthesis and through the closing one (`parse_arguments`). -/
def arguments (callee : String) (argument : ParseM (Option Measured)) : ParseM (List Measured) := do
  if ← accept .rparen then
    return []
  else
    let first ← required (.inArgs callee) argument
    let more ← many do
      if ← accept .comma then some <$> required (.inArgs callee) argument else return none
    let _ ← expect .rparen (.afterArgs callee)
    return first :: more

/-- A sign in front of a single atom. -/
def signed (op : UnaryOp) (atom : ParseM (Option Measured)) : ParseM Measured :=
  .unary op <$> required (.afterSign op) atom

/-- A literal, a name, a call, an expression in parentheses or a sign with its operand (`parse_atom`). `inner`
parses the atoms one level down. -/
def atomWith (inner : Option (ParseM (Option Measured))) : ParseM (Option Measured) := do
  let t ← next
  match t.kind with
  | .number value => return some (.num value)
  | .ident name =>
    if ← accept .lparen then
      let atom ← enter inner t.loc
      return some (.call name (← arguments name (binary atom 0)))
    else
      return some (.var name)
  | .lparen =>
    let atom ← enter inner t.loc
    let e ← required .afterParen (binary atom 0)
    let _ ← expect .rparen .afterGroup
    return some e
  | .plus =>
    let atom ← enter inner t.loc
    some <$> signed .identity atom
  | .minus =>
    let atom ← enter inner t.loc
    some <$> signed .negate atom
  | _ =>
    revert t
    return none

def atom : (room : Nat) → ParseM (Option Measured)
  | 0 => atomWith none
  | room + 1 => atomWith (some (atom room))

/-- A whole expression (`parse_expression`). -/
def expression (room : Nat) : ParseM (Option Expr) := do
  let start ← peek
  match ← binary (atom room) 0 with
  | none => return none
  | some e => if room + 1 < e.height then fail .expressionTooDeep start.loc else return some e.expr

end ParseM

end Wordlang
