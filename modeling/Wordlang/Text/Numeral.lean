import Wordlang.Word

/-!
# Decimal numerals

Reading a signed decimal numeral as a word. The text is read from left to right and the first character
that spoils it decides the error: a character that is no digit, or a digit that takes the value out of range.
-/

namespace Wordlang

/-- Why a text is not the numeral of a word. -/
inductive NumeralError
  | empty
  | invalidDigit
  | tooLarge
  | tooSmall
  deriving DecidableEq, Repr

namespace NumeralError

def message : NumeralError → String
  | empty => "cannot parse integer from empty string"
  | invalidDigit => "invalid digit found in string"
  | tooLarge => "number too large to fit in target type"
  | tooSmall => "number too small to fit in target type"

end NumeralError

namespace Numeral

/-- The value of one decimal digit. -/
def digitValue (c : Char) : Nat := c.toNat - '0'.toNat

/-- Reads digits behind a value, which may not pass `limit`. -/
def magnitude (limit : Nat) (beyond : NumeralError) : Nat → List Char → Except NumeralError Nat
  | value, [] => .ok value
  | value, c :: cs =>
    if c.isDigit then
      let value := 10 * value + digitValue c
      if limit < value then .error beyond else magnitude limit beyond value cs
    else .error .invalidDigit

/-- Reads digits with an optional sign in front. A sign needs a digit behind it. -/
def read : List Char → Except NumeralError Word
  | [] => .error .empty
  | [c] => if c = '+' ∨ c = '-' then .error .invalidDigit else positive [c]
  | c :: cs =>
    if c = '-' then (magnitude (Word.maxNat + 1) .tooSmall 0 cs).map fun n => Int64.ofInt (-n)
    else positive (if c = '+' then cs else c :: cs)
where
  positive (cs : List Char) : Except NumeralError Word :=
    (magnitude Word.maxNat .tooLarge 0 cs).map fun n => Int64.ofInt n

end Numeral

end Wordlang
