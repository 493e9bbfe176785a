import Wordlang.Parser.Stmt

/-!
# Parsing programs: `parse_program`, `parse_function_declaration`

A program is a sequence of functions through the end of the text.
-/

namespace Wordlang

namespace ParseM

/-- Names between commas, possibly none (`parse_name_list`). A comma needs a name behind it. -/
def names (list : ParseError.NameList) : ParseM (List String) := do
  let t ← next
  match t.kind with
  | .ident first =>
    let more ← many do
      if ← accept .comma then some <$> identifier (.afterNameComma list) else return none
    return first :: more
  | _ =>
    revert t
    return []

/-- The locals of a function, if it declares any (`parse_local_declaration`). -/
def localNames : ParseM (List String) := do
  if ← accept .kwVar then
    let locals ← names .locals
    let _ ← expect .semicolon .afterLocals
    return locals
  else
    return []

/-- What follows `func` or `proc` (`parse_function_declaration`). -/
def declaration (kind : FunctionKind) : ParseM Function := do
  let name ← identifier .afterFunctionKeyword
  let _ ← expect .lparen .afterFunctionName
  let params ← names .params
  let _ ← expect .rparen .afterParams
  let _ ← expect .lbrace .beforeBody
  let locals ← localNames
  let body ← many (statement maxNesting)
  let _ ← expect .rbrace .afterBody
  return { name, params, locals, body, kind }

def function : ParseM (Option Function) := do
  let t ← next
  match t.kind with
  | .kwFunc => some <$> declaration .func
  | .kwProc => some <$> declaration .proc
  | _ =>
    revert t
    return none

def program : ParseM Program := do
  let functions ← many function
  let t ← next
  if t.kind = .eof then
    return functions
  else
    fail (.expected .endOfInput t.kind) t.loc

end ParseM

namespace Program

/-- The program that a lexer delivers. -/
def ofLexer (l : Lexer) : Except ParseError Program := ParseM.program.run' l

/-- The program with the given source. -/
def parse (source : String) : Except ParseError Program := ofLexer (.ofString source)

end Program

end Wordlang
