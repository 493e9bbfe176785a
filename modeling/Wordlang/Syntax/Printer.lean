import Wordlang.Syntax.Tree

/-!
# Trees as text

The text of a tree is source that parses back to it. Every binary expression stands in parentheses, so the
text does not depend on precedence. Literals have no sign, so a negative number is written as a difference.
-/

namespace Wordlang

/-- One step of indentation. -/
def indentation : String := "    "

def indent (depth : Nat) : String := String.join (List.replicate depth indentation)

mutual

def Expr.text : Expr → String
  | .num value => if value < 0 then "(0 - " ++ value.toInt.natAbs.repr ++ ")" else value.text
  | .var name => name
  | .unary op operand => op.symbol ++ operand.text
  | .binary op left right => "(" ++ left.text ++ " " ++ op.symbol ++ " " ++ right.text ++ ")"
  | .call callee args => callee ++ "(" ++ ", ".intercalate (Expr.texts args) ++ ")"

def Expr.texts : List Expr → List String
  | [] => []
  | e :: es => e.text :: Expr.texts es

end

mutual

/-- The lines of a statement in a block of the given depth (`write_statement`). -/
def Stmt.textAt (depth : Nat) : Stmt → String
  | .expr e => indent depth ++ e.text ++ ";\n"
  | .set target value => indent depth ++ target ++ " = " ++ value.text ++ ";\n"
  | .ret none => indent depth ++ "return;\n"
  | .ret (some e) => indent depth ++ "return " ++ e.text ++ ";\n"
  | .ifThen test body =>
    indent depth ++ "if (" ++ test.text ++ ") \x7b\n" ++ Stmt.textsAt (depth + 1) body ++ indent depth ++ "\x7d\n"
  | .ifElse test yes no =>
    indent depth ++ "if (" ++ test.text ++ ") \x7b\n" ++ Stmt.textsAt (depth + 1) yes ++ indent depth ++
      "\x7d else \x7b\n" ++ Stmt.textsAt (depth + 1) no ++ indent depth ++ "\x7d\n"

def Stmt.textsAt (depth : Nat) : List Stmt → String
  | [] => ""
  | s :: ss => Stmt.textAt depth s ++ Stmt.textsAt depth ss

end

def Stmt.text (s : Stmt) : String := s.textAt 0

/-- Statements in braces, without a line break at the end. -/
def blockText (body : List Stmt) : String := "\x7b\n" ++ Stmt.textsAt 1 body ++ "\x7d"

def Function.text (f : Function) : String :=
  f.kind.keyword ++ " " ++ f.name ++ "(" ++ ", ".intercalate f.params ++ ") \x7b\n" ++
    (if f.locals.isEmpty then "" else indentation ++ "var " ++ ", ".intercalate f.locals ++ ";\n") ++
    Stmt.textsAt 1 f.body ++ "\x7d\n"

/-- Functions are separated by an empty line. -/
def Program.text (p : Program) : String := "\n".intercalate (p.map Function.text)

end Wordlang
