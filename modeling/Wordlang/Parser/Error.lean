import Wordlang.Token.Lexer

/-!
# Parse errors

A parse error tells what was wanted at which place of which construct, and what stood there instead.
-/

namespace Wordlang

/-- How deep parentheses, signs, argument lists and blocks may nest. -/
def maxNesting : Nat := 128

namespace ParseError

/-- A list of names in a declaration. -/
inductive NameList
  | params
  | locals
  deriving DecidableEq, Repr

/-- The place in a construct at which something is wanted. -/
inductive Place
  | afterFunctionKeyword
  | afterFunctionName
  | afterNameComma (list : NameList)
  | afterParams
  | beforeBody
  | afterLocals
  | afterBody
  | afterReturn
  | afterAssign
  | afterAssignment
  | afterIf
  | inCondition
  | afterCondition
  | afterElse
  | afterBlock
  | afterExpr
  | afterOperator (op : BinaryOp)
  | afterSign (op : UnaryOp)
  | afterParen
  | afterGroup
  | inArgs (callee : String)
  | afterArgs (callee : String)
  deriving DecidableEq, Repr

namespace Place

def text : Place → String
  | afterFunctionKeyword => "after 'func'/'proc'"
  | afterFunctionName => "after function name"
  | afterNameComma .params => "after ',' in parameter list"
  | afterNameComma .locals => "after ',' in 'var' declaration"
  | afterParams => "after parameters"
  | beforeBody => "before function body"
  | afterLocals => "after local declarations"
  | afterBody => "after function body"
  | afterReturn => "after return"
  | afterAssign => "after '='"
  | afterAssignment => "after assignment"
  | afterIf => "after 'if'"
  | inCondition => "in if condition"
  | afterCondition => "after if condition"
  | afterElse => "after 'else'"
  | afterBlock => "after block"
  | afterExpr => "after expression"
  | afterOperator op => "after '" ++ op.symbol ++ "'"
  | afterSign op => "after unary '" ++ op.symbol ++ "'"
  | afterParen => "after '('"
  | afterGroup => "after parenthesised expression"
  | inArgs callee => "in arguments of '" ++ callee ++ "'"
  | afterArgs callee => "after arguments of '" ++ callee ++ "'"

end Place

/-- What is wanted. -/
inductive Wanted
  | token (kind : Token.Kind) (place : Place)
  | identifier (place : Place)
  | expression (place : Place)
  | endOfInput
  deriving DecidableEq, Repr

namespace Wanted

def text : Wanted → String
  | token kind place => kind.describe ++ " " ++ place.text
  | identifier place => "identifier " ++ place.text
  | expression place => "expression " ++ place.text
  | endOfInput => Token.Kind.eof.describe

end Wanted

inductive Cause
  | expected (wanted : Wanted) (found : Token.Kind)
  | codeTooDeep
  | expressionTooDeep
  | nestedFunction (found : Token.Kind)
  | lexical (cause : LexError.Cause)
  deriving DecidableEq, Repr

namespace Cause

def message : Cause → String
  | expected wanted found => "Expected " ++ wanted.text ++ ", found " ++ found.describe
  | codeTooDeep => "Code nested too deeply (limit " ++ maxNesting.repr ++ ")"
  | expressionTooDeep => "Expression nested too deeply (limit " ++ maxNesting.repr ++ ")"
  | nestedFunction found =>
    "Nested function declarations are not supported, found " ++ found.describe
  | lexical cause => cause.message

end Cause

end ParseError

structure ParseError where
  cause : ParseError.Cause
  loc : Location
  deriving DecidableEq, Repr

namespace ParseError

def ofLexError (e : LexError) : ParseError := ⟨.lexical e.cause, e.loc⟩

def message (e : ParseError) : String :=
  "Parse error at line " ++ e.loc.line.repr ++ ", column " ++ e.loc.column.repr ++ ": " ++ e.cause.message

end ParseError

end Wordlang
