import Wordlang.Parser.Error

/-!
# Reading tokens

A parser draws tokens from a lexer as it needs them and hands back what it has read too far. A parser of an
optional thing answers `none` if nothing of its kind starts at the next token.
-/

namespace Wordlang

abbrev ParseM := StateT Lexer (Except ParseError)

namespace ParseM

variable {α : Type}

def fail (cause : ParseError.Cause) (loc : Location) : ParseM α := throw ⟨cause, loc⟩

def next : ParseM Token := fun l =>
  match l.next with
  | (.ok t, l) => .ok (t, l)
  | (.error e, _) => .error (.ofLexError e)

def revert (t : Token) : ParseM Unit := modify (·.revert t)

/-- The next token, which stays in place. -/
def peek : ParseM Token := do
  let t ← next
  revert t
  return t

/-- Takes the next token if it is of the given kind (`match_token`). -/
def accept (kind : Token.Kind) : ParseM Bool := do
  let t ← next
  if t.kind = kind then
    return true
  else
    revert t
    return false

/-- Takes the next token, which must be of the given kind (`expect_token`). -/
def expect (kind : Token.Kind) (place : ParseError.Place) : ParseM Token := do
  let t ← next
  if t.kind = kind then
    return t
  else
    fail (.expected (.token kind place) t.kind) t.loc

/-- Takes the next token, which must be an identifier (`expect_identifier`). -/
def identifier (place : ParseError.Place) : ParseM String := do
  let t ← next
  match t.kind with
  | .ident name => return name
  | found => fail (.expected (.identifier place) found) t.loc

/-- An expression that may not be missing, or else the error of `missing_expression`. -/
def required (place : ParseError.Place) (item : ParseM (Option α)) : ParseM α := do
  match ← item with
  | some a => return a
  | none =>
    let t ← peek
    fail (.expected (.expression place) t.kind) t.loc

/-- Steps from `a` on for as long as there is a next value, at most `n` times. -/
def upTo (step : α → ParseM (Option α)) : Nat → α → ParseM α
  | 0, a => return a
  | n + 1, a => do
    match ← step a with
    | none => return a
    | some a => upTo step n a

/-- All items up to the first that is missing. An item takes at least one token, so their number is at
most that of the tokens left. -/
def many (item : ParseM (Option α)) : ParseM (List α) := do
  let l ← get
  let items ← upTo (fun items => return (← item).map (· :: items)) (l.size + 1) []
  return items.reverse

/-- Goes one level down into what starts at `loc` (`descend`); `inner` is the parser there, if there is a level left. -/
def enter (inner : Option α) (loc : Location) : ParseM α :=
  match inner with
  | some a => return a
  | none => fail .codeTooDeep loc

end ParseM

end Wordlang
