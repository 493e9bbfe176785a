import Wordlang.Parser.Program

/-!
# Parsing a list of tokens

The parser once more, over tokens that are all there from the start. A place in the list is what is left of it.
The parser looks ahead from its place, by one token or two, and moves on; nothing is ever handed back. A list
may end before the end of the text: to look behind its last token is to run out of tokens, which is told apart
from an error of the parse.
-/

namespace Wordlang

/-- Why a parse over a list of tokens stops without a result. -/
inductive Stop
  | ranOut
  | failed (error : ParseError)
  deriving DecidableEq, Repr

abbrev LookM := StateT (List Token) (Except Stop)

namespace LookM

variable {α : Type}

/-- The token that stands `n` places ahead. -/
def ahead (n : Nat) : LookM Token := fun ts =>
  match ts[n]? with
  | some t => .ok (t, ts)
  | none => .error .ranOut

/-- Moves on by `n` tokens. -/
def skip (n : Nat) : LookM Unit := fun ts => .ok ((), ts.drop n)

def fail (cause : ParseError.Cause) (loc : Location) : LookM α := throw (.failed ⟨cause, loc⟩)

def accept (kind : Token.Kind) : LookM Bool := do
  let t ← ahead 0
  if t.kind = kind then
    skip 1
    return true
  else
    return false

def expect (kind : Token.Kind) (place : ParseError.Place) : LookM Token := do
  let t ← ahead 0
  if t.kind = kind then
    skip 1
    return t
  else
    fail (.expected (.token kind place) t.kind) t.loc

def identifier (place : ParseError.Place) : LookM String := do
  let t ← ahead 0
  match t.kind with
  | .ident name =>
    skip 1
    return name
  | found => fail (.expected (.identifier place) found) t.loc

def required (place : ParseError.Place) (item : LookM (Option α)) : LookM α := do
  match ← item with
  | some a => return a
  | none =>
    let t ← ahead 0
    fail (.expected (.expression place) t.kind) t.loc

def upTo (step : α → LookM (Option α)) : Nat → α → LookM α
  | 0, a => return a
  | n + 1, a => do
    match ← step a with
    | none => return a
    | some a => upTo step n a

/-- All items up to the first that is missing, of which there are no more than tokens. -/
def many (item : LookM (Option α)) : LookM (List α) := do
  let ts ← get
  let items ← upTo (fun items => return (← item).map (· :: items)) (ts.length + 1) []
  return items.reverse

def enter (inner : Option α) (loc : Location) : LookM α :=
  match inner with
  | some a => return a
  | none => fail .codeTooDeep loc

/-- Something behind a comma. -/
def afterComma (item : LookM α) : LookM (Option α) := do
  if ← accept .comma then some <$> item else return none

/-! ## Expressions -/

def binary (atom : LookM (Option Measured)) (level : Nat) : LookM (Option Measured) := do
  match ← atom with
  | none => return none
  | some e => some <$> upTo (fun left => do
      let t ← ahead 0
      match t.kind.binaryOp? with
      | some op =>
        if h : level ≤ op.precedence then
          have := op.precedence_lt
          skip 1
          let right ← required (.afterOperator op) (binary atom (op.precedence + 1))
          let e := Measured.binary op left right
          if maxNesting + 1 < e.height then fail .expressionTooDeep t.loc else return some e
        else
          return none
      | none => return none) (maxNesting + 1) e
termination_by 5 - level

/-- One round of the loop over operators. -/
def climb (atom : LookM (Option Measured)) (level : Nat) (left : Measured) : LookM (Option Measured) := do
  let t ← ahead 0
  match t.kind.binaryOp? with
  | some op =>
    if level ≤ op.precedence then
      skip 1
      let right ← required (.afterOperator op) (binary atom (op.precedence + 1))
      let e := Measured.binary op left right
      if maxNesting + 1 < e.height then fail .expressionTooDeep t.loc else return some e
    else
      return none
  | none => return none

theorem binary_eq (atom : LookM (Option Measured)) (level : Nat) : binary atom level = (do
    match ← atom with
    | none => return none
    | some e => some <$> upTo (climb atom level) (maxNesting + 1) e) := by
  rw [binary]
  rfl

def arguments (callee : String) (argument : LookM (Option Measured)) : LookM (List Measured) := do
  if ← accept .rparen then
    return []
  else
    let first ← required (.inArgs callee) argument
    let more ← many (afterComma (required (.inArgs callee) argument))
    let _ ← expect .rparen (.afterArgs callee)
    return first :: more

def signed (op : UnaryOp) (atom : LookM (Option Measured)) : LookM Measured :=
  .unary op <$> required (.afterSign op) atom

def atomWith (inner : Option (LookM (Option Measured))) : LookM (Option Measured) := do
  let t ← ahead 0
  match t.kind with
  | .number value =>
    skip 1
    return some (.num value)
  | .ident name =>
    skip 1
    if ← accept .lparen then
      let atom ← enter inner t.loc
      return some (.call name (← arguments name (binary atom 0)))
    else
      return some (.var name)
  | .lparen =>
    skip 1
    let atom ← enter inner t.loc
    let e ← required .afterParen (binary atom 0)
    let _ ← expect .rparen .afterGroup
    return some e
  | .plus =>
    skip 1
    let atom ← enter inner t.loc
    some <$> signed .identity atom
  | .minus =>
    skip 1
    let atom ← enter inner t.loc
    some <$> signed .negate atom
  | _ => return none

def atom : (room : Nat) → LookM (Option Measured)
  | 0 => atomWith none
  | room + 1 => atomWith (some (atom room))

def expression (room : Nat) : LookM (Option Expr) := do
  let start ← ahead 0
  match ← binary (atom room) 0 with
  | none => return none
  | some e => if room + 1 < e.height then fail .expressionTooDeep start.loc else return some e.expr

/-! ## Statements -/

/-- The name in front of `=`, with the `=`. A name alone is left in its place. -/
def assignee : LookM (Option String) := do
  let t ← ahead 0
  match t.kind with
  | .ident name =>
    let u ← ahead 1
    if u.kind = .assign then
      skip 2
      return some name
    else
      return none
  | _ => return none

def block (place : ParseError.Place) (inner : Option (LookM (Option Stmt))) : LookM (List Stmt) := do
  let brace ← expect .lbrace place
  let statement ← enter inner brace.loc
  let body ← many statement
  let _ ← expect .rbrace .afterBlock
  return body

def conditional (room : Nat) (inner : Option (LookM (Option Stmt))) : LookM Stmt := do
  let _ ← expect .lparen .afterIf
  let test ← required .inCondition (expression room)
  let _ ← expect .rparen .afterCondition
  let yes ← block .afterCondition inner
  if ← accept .kwElse then
    return .ifElse test yes (← block .afterElse inner)
  else
    return .ifThen test yes

def statementWith (room : Nat) (inner : Option (LookM (Option Stmt))) : LookM (Option Stmt) := do
  if ← accept .kwReturn then
    let value ← expression room
    let _ ← expect .semicolon .afterReturn
    return some (.ret value)
  else
    match ← assignee with
    | some target =>
      let value ← required .afterAssign (expression room)
      let _ ← expect .semicolon .afterAssignment
      return some (.set target value)
    | none =>
      if ← accept .kwIf then
        some <$> conditional room inner
      else
        let t ← ahead 0
        if t.kind = .kwFunc ∨ t.kind = .kwProc then
          fail (.nestedFunction t.kind) t.loc
        else
          match ← expression room with
          | none => return none
          | some e =>
            let _ ← expect .semicolon .afterExpr
            return some (.expr e)

def statement : (room : Nat) → LookM (Option Stmt)
  | 0 => statementWith 0 none
  | room + 1 => statementWith (room + 1) (some (statement room))

/-! ## Programs -/

def names (list : ParseError.NameList) : LookM (List String) := do
  let t ← ahead 0
  match t.kind with
  | .ident first =>
    skip 1
    let more ← many (afterComma (identifier (.afterNameComma list)))
    return first :: more
  | _ => return []

def localNames : LookM (List String) := do
  if ← accept .kwVar then
    let locals ← names .locals
    let _ ← expect .semicolon .afterLocals
    return locals
  else
    return []

def declaration (kind : FunctionKind) : LookM Function := do
  let name ← identifier .afterFunctionKeyword
  let _ ← expect .lparen .afterFunctionName
  let params ← names .params
  let _ ← expect .rparen .afterParams
  let _ ← expect .lbrace .beforeBody
  let locals ← localNames
  let body ← many (statement maxNesting)
  let _ ← expect .rbrace .afterBody
  return { name, params, locals, body, kind }

def function : LookM (Option Function) := do
  let t ← ahead 0
  match t.kind with
  | .kwFunc =>
    skip 1
    some <$> declaration .func
  | .kwProc =>
    skip 1
    some <$> declaration .proc
  | _ => return none

def program : LookM Program := do
  let functions ← many function
  let t ← ahead 0
  if t.kind = .eof then
    return functions
  else
    fail (.expected .endOfInput t.kind) t.loc

end LookM

/-- The program that a list of tokens makes up. -/
def Program.ofTokens (ts : List Token) : Except Stop Program := LookM.program.run' ts

end Wordlang
