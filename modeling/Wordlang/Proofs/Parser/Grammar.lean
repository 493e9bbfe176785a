import Wordlang.Syntax.Tree
import Wordlang.Parser.Error

/-!
# The grammar

Which tokens make up which tree. Binary operators stand on five levels that associate to the left, an atom
on the level above them; parentheses leave no node. Each token is placed: it comes with the number of
constructs that it lies in, counted among parentheses around an expression, operands of signs, argument
lists and blocks. The delimiters of a construct lie in it.

`Grammar.Derives` is about whole programs. The limits on nesting are not part of it: `Grammar.Shallow` bounds
the places of the tokens and `Low` the heights of the expressions.
-/

namespace Wordlang

/-- A kind of token with the number of constructs that the token lies in. -/
abbrev Placed := Token.Kind × Nat

def BinaryOp.token : BinaryOp → Token.Kind
  | or => .orOr
  | and => .andAnd
  | less => .less
  | greater => .greater
  | equal => .equal
  | notEqual => .notEqual
  | add => .plus
  | sub => .minus
  | mul => .star
  | div => .slash

def UnaryOp.token : UnaryOp → Token.Kind
  | identity => .plus
  | negate => .minus

def FunctionKind.token : FunctionKind → Token.Kind
  | func => .kwFunc
  | proc => .kwProc

namespace Grammar

/-! ## Productions -/

/-- The symbols of each level of operators, from the loosest to the tightest. -/
def levels : List (List String) := [["||"], ["&&"], ["<", ">", "==", "!="], ["+", "-"], ["*", "/"]]

/-- The operators that bind on a level. -/
def operators (level : Nat) : List BinaryOp := (levels.getD level []).filterMap BinaryOp.ofSymbol?

/-- Parts with commas between them. -/
def separated (depth : Nat) (parts : List (List Placed)) : List Placed := [(.comma, depth)].intercalate parts

/-- Expressions of a level: 0 to 4 are those of the operators, 5 is that of atoms. -/
inductive Expression : (level depth : Nat) → List Placed → Expr → Prop
  | number (depth : Nat) (value : Word) : Expression 5 depth [(.number value, depth)] (.num value)
  | name (depth : Nat) (x : String) : Expression 5 depth [(.ident x, depth)] (.var x)
  | call {depth : Nat} (callee : String) (args : List (List Placed × Expr)) :
    (∀ arg ∈ args, Expression 0 (depth + 1) arg.1 arg.2) →
    Expression 5 depth
      ((.ident callee, depth) :: (.lparen, depth + 1) ::
        (separated (depth + 1) (args.map (·.1)) ++ [(.rparen, depth + 1)]))
      (.call callee (args.map (·.2)))
  | group {depth : Nat} {us : List Placed} {e : Expr} :
    Expression 0 (depth + 1) us e →
    Expression 5 depth ((.lparen, depth + 1) :: (us ++ [(.rparen, depth + 1)])) e
  | sign {depth : Nat} {us : List Placed} {e : Expr} (op : UnaryOp) :
    Expression 5 (depth + 1) us e → Expression 5 depth ((op.token, depth) :: us) (.unary op e)
  | tighter {level depth : Nat} {us : List Placed} {e : Expr} :
    level < 5 → Expression (level + 1) depth us e → Expression level depth us e
  | operation {level depth : Nat} {us vs : List Placed} {left right : Expr} (op : BinaryOp) :
    op ∈ operators level → Expression level depth us left → Expression (level + 1) depth vs right →
    Expression level depth (us ++ (op.token, depth) :: vs) (.binary op left right)

/-- The condition of an `if`, with the keyword. -/
def condition (depth : Nat) (us : List Placed) : List Placed :=
  (.kwIf, depth) :: (.lparen, depth) :: (us ++ [(.rparen, depth)])

/-- A block with statements of the given tokens. -/
def braced (depth : Nat) (parts : List (List Placed)) : List Placed :=
  (.lbrace, depth + 1) :: (parts.flatten ++ [(.rbrace, depth + 1)])

inductive Statement : (depth : Nat) → List Placed → Stmt → Prop
  | expr {depth : Nat} {us : List Placed} {e : Expr} :
    Expression 0 depth us e → Statement depth (us ++ [(.semicolon, depth)]) (.expr e)
  | set {depth : Nat} {us : List Placed} {e : Expr} (target : String) :
    Expression 0 depth us e →
    Statement depth ((.ident target, depth) :: (.assign, depth) :: (us ++ [(.semicolon, depth)])) (.set target e)
  | leave (depth : Nat) : Statement depth [(.kwReturn, depth), (.semicolon, depth)] (.ret none)
  | leaveWith {depth : Nat} {us : List Placed} {e : Expr} :
    Expression 0 depth us e →
    Statement depth ((.kwReturn, depth) :: (us ++ [(.semicolon, depth)])) (.ret (some e))
  | ifThen {depth : Nat} {us : List Placed} {test : Expr} (body : List (List Placed × Stmt)) :
    Expression 0 depth us test → (∀ s ∈ body, Statement (depth + 1) s.1 s.2) →
    Statement depth (condition depth us ++ braced depth (body.map (·.1))) (.ifThen test (body.map (·.2)))
  | ifElse {depth : Nat} {us : List Placed} {test : Expr} (yes no : List (List Placed × Stmt)) :
    Expression 0 depth us test → (∀ s ∈ yes, Statement (depth + 1) s.1 s.2) →
    (∀ s ∈ no, Statement (depth + 1) s.1 s.2) →
    Statement depth
      (condition depth us ++ braced depth (yes.map (·.1)) ++ (.kwElse, depth) :: braced depth (no.map (·.1)))
      (.ifElse test (yes.map (·.2)) (no.map (·.2)))

/-- Names between commas, possibly none. -/
def names (xs : List String) : List Placed := separated 0 (xs.map fun x => [(.ident x, 0)])

/-- The declaration of locals may be missing. -/
inductive Locals : List Placed → List String → Prop
  | missing : Locals [] []
  | declared (xs : List String) : Locals ((.kwVar, 0) :: (names xs ++ [(.semicolon, 0)])) xs

inductive Declaration : List Placed → Function → Prop
  | intro {ls : List Placed} (name : String) (params : List String) (locals : List String)
    (body : List (List Placed × Stmt)) (kind : FunctionKind) :
    Locals ls locals → (∀ s ∈ body, Statement 0 s.1 s.2) →
    Declaration
      ((kind.token, 0) :: (.ident name, 0) :: (.lparen, 0) :: (names params ++
        (.rparen, 0) :: (.lbrace, 0) :: (ls ++ ((body.map (·.1)).flatten ++ [(.rbrace, 0)]))))
      ⟨name, params, locals, body.map (·.2), kind⟩

/-- The tokens of a program, without the end of the text. -/
inductive Derives : List Placed → Program → Prop
  | intro (parts : List (List Placed × Function)) :
    (∀ f ∈ parts, Declaration f.1 f.2) → Derives (parts.map (·.1)).flatten (parts.map (·.2))

/-! ## Limits -/

/-- No token lies in more constructs than may nest. -/
def Shallow (us : List Placed) : Prop := ∀ u ∈ us, u.2 ≤ maxNesting

instance (us : List Placed) : Decidable (Shallow us) := inferInstanceAs (Decidable (∀ u ∈ us, u.2 ≤ maxNesting))

end Grammar

mutual

/-- The complete expressions of a statement inside `depth` blocks, each with the number of blocks around it. -/
def Stmt.complete (depth : Nat) : Stmt → List (Nat × Expr)
  | .expr e => [(depth, e)]
  | .set _ e => [(depth, e)]
  | .ret none => []
  | .ret (some e) => [(depth, e)]
  | .ifThen test body => (depth, test) :: Stmt.completeOf (depth + 1) body
  | .ifElse test yes no => (depth, test) :: (Stmt.completeOf (depth + 1) yes ++ Stmt.completeOf (depth + 1) no)

def Stmt.completeOf (depth : Nat) : List Stmt → List (Nat × Expr)
  | [] => []
  | s :: ss => Stmt.complete depth s ++ Stmt.completeOf depth ss

end

/-- The complete expressions of a program. -/
def Program.complete (p : Program) : List (Nat × Expr) := p.flatMap fun f => Stmt.completeOf 0 f.body

/-- No expression is too high for the number of blocks around it. -/
def Low (es : List (Nat × Expr)) : Prop := ∀ x ∈ es, x.1 + x.2.height - 1 ≤ maxNesting

instance (es : List (Nat × Expr)) : Decidable (Low es) :=
  inferInstanceAs (Decidable (∀ x ∈ es, x.1 + x.2.height - 1 ≤ maxNesting))

end Wordlang
