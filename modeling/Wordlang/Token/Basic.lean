import Wordlang.Word
import Wordlang.Syntax.Operator
import Wordlang.Token.Location

/-!
# Tokens

A token is one lexeme of the source, known by its kind, together with the location of its first character.
The end of the text is a token as well.
-/

namespace Wordlang

inductive Token.Kind
  | number (value : Word)
  | ident (name : String)
  | kwIf
  | kwElse
  | kwVar
  | kwFunc
  | kwProc
  | kwReturn
  | plus
  | minus
  | star
  | slash
  | less
  | greater
  | equal
  | notEqual
  | andAnd
  | orOr
  | assign
  | lparen
  | rparen
  | lbrace
  | rbrace
  | semicolon
  | comma
  | eof
  deriving DecidableEq, Repr

structure Token where
  kind : Token.Kind
  loc : Location
  deriving DecidableEq, Repr

namespace Token.Kind

/-- How a token of this kind is written. The end of the text has no characters. -/
def spelling : Kind → String
  | number value => value.text
  | ident name => name
  | kwIf => "if"
  | kwElse => "else"
  | kwVar => "var"
  | kwFunc => "func"
  | kwProc => "proc"
  | kwReturn => "return"
  | plus => "+"
  | minus => "-"
  | star => "*"
  | slash => "/"
  | less => "<"
  | greater => ">"
  | equal => "=="
  | notEqual => "!="
  | andAnd => "&&"
  | orOr => "||"
  | assign => "="
  | lparen => "("
  | rparen => ")"
  | lbrace => "\x7b"
  | rbrace => "\x7d"
  | semicolon => ";"
  | comma => ","
  | eof => ""

/-- How messages speak of a token of this kind. -/
def describe : Kind → String
  | number value => "number " ++ value.text
  | ident name => "identifier '" ++ name ++ "'"
  | eof => "end of input"
  | kind => "'" ++ kind.spelling ++ "'"

/-- The binary operator that a token of this kind spells (`binary_op`). -/
def binaryOp? : Kind → Option BinaryOp
  | orOr => some .or
  | andAnd => some .and
  | less => some .less
  | greater => some .greater
  | equal => some .equal
  | notEqual => some .notEqual
  | plus => some .add
  | minus => some .sub
  | star => some .mul
  | slash => some .div
  | _ => none

/-- The keyword with the given spelling. -/
def keyword? : String → Option Kind
  | "if" => some kwIf
  | "else" => some kwElse
  | "var" => some kwVar
  | "func" => some kwFunc
  | "proc" => some kwProc
  | "return" => some kwReturn
  | _ => none

/-- A word made of name characters (`identifier_or_keyword`): a keyword, or else an identifier. -/
def ofName (name : String) : Kind := (keyword? name).getD (ident name)

end Token.Kind

end Wordlang
