/-!
# Operators

Binary operators bind on five levels, from `||`, the loosest, to `*` and `/`, the tightest.
-/

namespace Wordlang

inductive BinaryOp
  | or
  | and
  | less
  | greater
  | equal
  | notEqual
  | add
  | sub
  | mul
  | div
  deriving DecidableEq, Repr

namespace BinaryOp

/-- The binding level, 0 for the loosest. -/
def precedence : BinaryOp → Nat
  | or => 0
  | and => 1
  | less | greater | equal | notEqual => 2
  | add | sub => 3
  | mul | div => 4

def symbol : BinaryOp → String
  | or => "||"
  | and => "&&"
  | less => "<"
  | greater => ">"
  | equal => "=="
  | notEqual => "!="
  | add => "+"
  | sub => "-"
  | mul => "*"
  | div => "/"

/-- The right operand of `&&` and `||` is evaluated only if the left one leaves the result open. -/
def isShortCircuit : BinaryOp → Bool
  | or | and => true
  | _ => false

def all : List BinaryOp := [or, and, less, greater, equal, notEqual, add, sub, mul, div]

/-- The operator that a symbol spells. -/
def ofSymbol? (symbol : String) : Option BinaryOp := all.find? (·.symbol == symbol)

/-- There are five levels. -/
theorem precedence_lt (op : BinaryOp) : op.precedence < 5 := by cases op <;> decide

theorem ofSymbol?_symbol (op : BinaryOp) : ofSymbol? op.symbol = some op := by cases op <;> decide

end BinaryOp

inductive UnaryOp
  | identity
  | negate
  deriving DecidableEq, Repr

namespace UnaryOp

def symbol : UnaryOp → String
  | identity => "+"
  | negate => "-"

end UnaryOp

end Wordlang
