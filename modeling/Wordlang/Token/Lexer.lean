import Wordlang.Token.Basic
import Wordlang.Text.Utf8

/-!
# The lexer: `next_token`, `revert`, `tokenize`

A lexer delivers the tokens of a text one by one. Tokens can be handed back; they are delivered again,
last in first out, before any more of the text is read. After an error the lexer goes on behind the
characters that it has read.

Main statement: `next_size_lt`, a token other than the end of the text leaves less to be delivered.
-/

namespace Wordlang

/-- Why no token starts at a place. -/
inductive LexError.Cause
  | unexpectedCharacter (c : Char)
  | literalOutOfRange (digits : List Char)
  deriving DecidableEq, Repr

structure LexError where
  cause : LexError.Cause
  loc : Location
  deriving DecidableEq, Repr

namespace LexError

def Cause.message : Cause → String
  | unexpectedCharacter c => "Unexpected character: '" ++ String.singleton c ++ "'"
  | literalOutOfRange digits => "Integer literal out of range: " ++ String.ofList digits

def message (e : LexError) : String :=
  "Lexer error at line " ++ e.loc.line.repr ++ ", column " ++ e.loc.column.repr ++ ": " ++ e.cause.message

end LexError

/-! ## Lexemes -/

/-- A lexeme at the head of a text: its characters, the token it makes, and the text behind it. -/
structure Lexeme where
  chars : List Char
  kind : Except LexError.Cause Token.Kind
  rest : List Char

namespace Lexeme

def isBlank (c : Char) : Bool := c == ' ' || c == '\t' || c == '\r' || c == '\n'

def isNameStart (c : Char) : Bool := c.isAlpha || c == '_'

def isNameChar (c : Char) : Bool := c.isAlphanum || c == '_'

/-- The kind of a string of digits (`number_literal`): a number, if it fits a word. -/
def literal (digits : List Char) : Except LexError.Cause Token.Kind :=
  let value := Nat.ofDigitChars 10 digits 0
  if value ≤ Word.maxNat then .ok (.number (Int64.ofNat value)) else .error (.literalOutOfRange digits)

/-- Tokens of two characters. -/
def pair? : Char → Char → Option Token.Kind
  | '=', '=' => some .equal
  | '!', '=' => some .notEqual
  | '&', '&' => some .andAnd
  | '|', '|' => some .orOr
  | _, _ => none

/-- Tokens of one character. -/
def single? : Char → Option Token.Kind
  | '+' => some .plus
  | '-' => some .minus
  | '*' => some .star
  | '/' => some .slash
  | '<' => some .less
  | '>' => some .greater
  | '=' => some .assign
  | '(' => some .lparen
  | ')' => some .rparen
  | '{' => some .lbrace
  | '}' => some .rbrace
  | ';' => some .semicolon
  | ',' => some .comma
  | _ => none

/-- A lexeme of the one character `c`. -/
def lone (c : Char) (cs : List Char) : Lexeme :=
  match single? c with
  | some kind => ⟨[c], .ok kind, cs⟩
  | none => ⟨[c], .error (.unexpectedCharacter c), cs⟩

/-- A lexeme that is neither a literal nor a name. Two characters that form a token belong together. -/
def symbol (c : Char) : List Char → Lexeme
  | [] => lone c []
  | d :: cs =>
    match pair? c d with
    | some kind => ⟨[c, d], .ok kind, cs⟩
    | none => lone c (d :: cs)

/-- The lexeme at the head of the text `c :: cs`, which starts with no blank and no comment. -/
def read (c : Char) (cs : List Char) : Lexeme :=
  if c.isDigit then
    let digits := c :: cs.takeWhile Char.isDigit
    ⟨digits, literal digits, cs.dropWhile Char.isDigit⟩
  else if isNameStart c then
    let name := c :: cs.takeWhile isNameChar
    ⟨name, .ok (.ofName (String.ofList name)), cs.dropWhile isNameChar⟩
  else symbol c cs

theorem lone_chars (c : Char) (cs : List Char) : (lone c cs).chars = [c] := by
  unfold lone
  split <;> rfl

theorem lone_rest (c : Char) (cs : List Char) : (lone c cs).rest = cs := by
  unfold lone
  split <;> rfl

theorem symbol_chars_append_rest (c : Char) (cs : List Char) :
    (symbol c cs).chars ++ (symbol c cs).rest = c :: cs := by
  unfold symbol
  split
  · simp [lone_chars, lone_rest]
  · split <;> simp [lone_chars, lone_rest]

/-- A lexeme and the text behind it make up the text. -/
theorem read_chars_append_rest (c : Char) (cs : List Char) :
    (read c cs).chars ++ (read c cs).rest = c :: cs := by
  unfold read
  split
  · simp [List.takeWhile_append_dropWhile]
  · split
    · simp [List.takeWhile_append_dropWhile]
    · exact symbol_chars_append_rest c cs

theorem symbol_chars_ne_nil (c : Char) (cs : List Char) : (symbol c cs).chars ≠ [] := by
  unfold symbol
  split
  · simp [lone_chars]
  · split <;> simp [lone_chars]

theorem read_chars_ne_nil (c : Char) (cs : List Char) : (read c cs).chars ≠ [] := by
  unfold read
  split
  · simp
  · split
    · simp
    · exact symbol_chars_ne_nil c cs

theorem read_rest_length_lt (c : Char) (cs : List Char) :
    (read c cs).rest.length < (c :: cs).length := by
  have h := congrArg List.length (read_chars_append_rest c cs)
  have hpos := List.length_pos_iff.2 (read_chars_ne_nil c cs)
  simp only [List.length_append] at h
  omega

end Lexeme

/-! ## Lexers -/

structure Lexer where
  rest : List Char
  loc : Location := .start
  pushback : List Token := []

namespace Lexer

def ofString (source : String) : Lexer := ⟨source.toList, .start, []⟩

/-- Bytes that are not UTF-8 are read as replacement characters. -/
def ofBytes (bytes : List UInt8) : Lexer := ⟨Utf8.decode bytes, .start, []⟩

/-- Skips blanks and comments (`skip_whitespace_and_comments`). A comment runs from `//` through the end of its
line; `inComment` tells that the text stands inside one. -/
def skipTrivia (inComment : Bool) (loc : Location) : List Char → Location × List Char
  | [] => (loc, [])
  | c :: cs =>
    if inComment then skipTrivia (c != '\n') (loc.advance c) cs
    else if Lexeme.isBlank c then skipTrivia false (loc.advance c) cs
    else if c = '/' ∧ cs.head? = some '/' then skipTrivia true (loc.advance c) cs
    else (loc, c :: cs)

theorem skipTrivia_length_le (inComment : Bool) (loc : Location) (cs : List Char) :
    (skipTrivia inComment loc cs).2.length ≤ cs.length := by
  induction cs generalizing inComment loc with
  | nil => simp [skipTrivia]
  | cons c cs ih =>
    unfold skipTrivia
    split
    · exact Nat.le_succ_of_le (ih _ _)
    · split
      · exact Nat.le_succ_of_le (ih _ _)
      · split
        · exact Nat.le_succ_of_le (ih _ _)
        · exact Nat.le_refl _

/-- Reads the next token from the text (`scan_token`). -/
def scan (loc : Location) (rest : List Char) : Except LexError Token × Lexer :=
  match skipTrivia false loc rest with
  | (loc, []) => (.ok ⟨.eof, loc⟩, ⟨[], loc, []⟩)
  | (loc, c :: cs) =>
    let lexeme := Lexeme.read c cs
    let after : Lexer := ⟨lexeme.rest, loc.behind lexeme.chars, []⟩
    match lexeme.kind with
    | .ok kind => (.ok ⟨kind, loc⟩, after)
    | .error cause => (.error ⟨cause, loc⟩, after)

/-- Delivers the next token (`next_token`): the one handed back last, or else one from the text. -/
def next (l : Lexer) : Except LexError Token × Lexer :=
  match l.pushback with
  | t :: ts => (.ok t, { l with pushback := ts })
  | [] => scan l.loc l.rest

/-- Hands a token back. -/
def revert (l : Lexer) (t : Token) : Lexer := { l with pushback := t :: l.pushback }

/-- A bound on the number of tokens still to be delivered before the end of the text. -/
def size (l : Lexer) : Nat := l.rest.length + l.pushback.length

theorem scan_size_lt {loc : Location} {rest : List Char} {t : Token} {l : Lexer}
    (h : scan loc rest = (.ok t, l)) (ht : t.kind ≠ .eof) : l.size < rest.length := by
  have hle := skipTrivia_length_le false loc rest
  unfold scan at h
  split at h
  · simp only [Prod.mk.injEq, Except.ok.injEq] at h
    exact absurd (by rw [← h.1]) ht
  · rename_i c cs hs
    rw [hs] at hle
    have hlt := Lexeme.read_rest_length_lt c cs
    dsimp only at h
    split at h
    · simp only [Prod.mk.injEq] at h
      rw [← h.2]
      simp only [size, List.length_nil] at *
      omega
    · simp at h

/-- A token other than the end of the text leaves less to be delivered. -/
theorem next_size_lt {l l' : Lexer} {t : Token} (h : l.next = (.ok t, l')) (ht : t.kind ≠ .eof) :
    l'.size < l.size := by
  unfold next at h
  split at h
  · rename_i hp
    simp only [Prod.mk.injEq, Except.ok.injEq] at h
    rw [← h.2]
    simp [size, hp]
  · have := scan_size_lt h ht
    simp only [size] at *
    omega

/-- Delivers all tokens through the end of the text, or fails at the first place without one. -/
def tokenize (l : Lexer) : Except LexError (List Token) × Lexer := go [] l
where
  go (delivered : List Token) (l : Lexer) : Except LexError (List Token) × Lexer :=
    match h : l.next with
    | (.error e, l') => (.error e, l')
    | (.ok t, l') =>
      if ht : t.kind = .eof then (.ok (t :: delivered).reverse, l')
      else
        have := next_size_lt h ht
        go (t :: delivered) l'
  termination_by l.size

end Lexer

end Wordlang
