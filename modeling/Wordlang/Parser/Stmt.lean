import Wordlang.Parser.Expr

/-!
# Parsing statements: `parse_statement` and its alternatives

Assignments and expressions both may start with a name, so the name and the token behind it are read before
it is clear which of them it is. A block takes one level of nesting.
-/

namespace Wordlang.ParseM

/-- The name in front of `=`, with the `=`, which decides whether `parse_set_statement` goes on. -/
def assignee : ParseM (Option String) := do
  let t ← next
  match t.kind with
  | .ident name =>
    let u ← next
    if u.kind = .assign then
      return some name
    else
      revert u
      revert t
      return none
  | _ =>
    revert t
    return none

/-- Statements in braces (`parse_braced_block`); `inner` parses them. -/
def block (place : ParseError.Place) (inner : Option (ParseM (Option Stmt))) : ParseM (List Stmt) := do
  let brace ← expect .lbrace place
  let statement ← enter inner brace.loc
  let body ← many statement
  let _ ← expect .rbrace .afterBlock
  return body

/-- What follows `if` (`parse_if_statement`). -/
def conditional (room : Nat) (inner : Option (ParseM (Option Stmt))) : ParseM Stmt := do
  let _ ← expect .lparen .afterIf
  let test ← required .inCondition (expression room)
  let _ ← expect .rparen .afterCondition
  let yes ← block .afterCondition inner
  if ← accept .kwElse then
    return .ifElse test yes (← block .afterElse inner)
  else
    return .ifThen test yes

/-- A statement (`parse_statement`); `inner` parses those of its blocks. -/
def statementWith (room : Nat) (inner : Option (ParseM (Option Stmt))) : ParseM (Option Stmt) := do
  if ← accept .kwReturn then
    let value ← expression room
    let _ ← expect .semicolon .afterReturn
    return some (.ret value)
  else
    match ← assignee with
    | some target =>
      let value ← required .afterAssign (expression room)
      let _ ← expect .semicolon .afterAssignment
      return some (.set target value)
    | none =>
      if ← accept .kwIf then
        some <$> conditional room inner
      else
        let t ← peek
        if t.kind = .kwFunc ∨ t.kind = .kwProc then
          fail (.nestedFunction t.kind) t.loc
        else
          match ← expression room with
          | none => return none
          | some e =>
            let _ ← expect .semicolon .afterExpr
            return some (.expr e)

def statement : (room : Nat) → ParseM (Option Stmt)
  | 0 => statementWith 0 none
  | room + 1 => statementWith (room + 1) (some (statement room))

end Wordlang.ParseM
