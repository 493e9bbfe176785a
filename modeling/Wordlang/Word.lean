/-!
# Words

Every value of the language is a 64-bit two's complement word. Addition, subtraction, multiplication and
negation wrap around; division goes toward zero and has two cases without a result.
-/

namespace Wordlang

abbrev Word := Int64

/-- Why a division has no result. -/
inductive DivisionFault
  | byZero
  | overflow
  deriving DecidableEq, Repr

namespace Word

/-- The largest word, `2^63 - 1`, as a natural number. -/
def maxNat : Nat := 9223372036854775807

/-- Truth values are the words 1 and 0. -/
def ofBool (b : Bool) : Word := if b then 1 else 0

/-- Division toward zero. The least word divided by `-1` does not fit a word. -/
def divide (a b : Word) : Except DivisionFault Word :=
  if b = 0 then .error .byZero
  else if a = Int64.minValue ∧ b = -1 then .error .overflow
  else .ok (a / b)

/-- Decimal text, with a minus sign for negative words. -/
def text (w : Word) : String := w.toInt.repr

end Word

end Wordlang
