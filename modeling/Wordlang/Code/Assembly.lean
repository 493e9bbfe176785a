import Wordlang.Code.Instruction
import Wordlang.Text.Numeral

/-!
# Reading instructions

The words of an instruction are separated by single spaces. Numbers of slots, functions and arguments are
unsigned, and the number of a function has a `#` in front.
-/

namespace Wordlang

/-- An unsigned decimal number. -/
def readNat? (digits : String) : Option Nat :=
  let cs := digits.toList
  if cs.isEmpty ∨ cs.any (!·.isDigit) then none else some (Nat.ofDigitChars 10 cs 0)

/-- The number of a function. -/
def readId? (word : String) : Option Nat :=
  match word.toList with
  | '#' :: digits => readNat? (String.ofList digits)
  | _ => none

namespace Instruction

/-- Reads the words of an instruction. -/
def ofWords? : List String → Option Instruction
  | ["push", n] => (Numeral.read n.toList).toOption.map push
  | ["pop"] => some pop
  | ["ldarg", i] => (readNat? i).map (load ∘ .arg)
  | ["starg", i] => (readNat? i).map (store ∘ .arg)
  | ["ldloc", i] => (readNat? i).map (load ∘ .loc)
  | ["stloc", i] => (readNat? i).map (store ∘ .loc)
  | ["ldglob", i] => (readNat? i).map (load ∘ .global)
  | ["stglob", i] => (readNat? i).map (store ∘ .global)
  | ["neg"] => some neg
  | ["add"] => some (arith .add)
  | ["sub"] => some (arith .sub)
  | ["mul"] => some (arith .mul)
  | ["div"] => some (arith .div)
  | ["lt"] => some (arith .less)
  | ["gt"] => some (arith .greater)
  | ["eq"] => some (arith .equal)
  | ["ne"] => some (arith .notEqual)
  | ["jmp", a] => (readNat? a).map jump
  | ["jz", a] => (readNat? a).map jumpIfZero
  | ["jnz", a] => (readNat? a).map jumpIfNonZero
  | ["call", f, n] => return call (← readId? f) (← readNat? n)
  | ["callext", f, n] => return callExternal (← readId? f) (← readNat? n) .func
  | ["callext", f, n, "void"] => return callExternal (← readId? f) (← readNat? n) .proc
  | ["ret"] => some ret
  | ["retval"] => some retValue
  | _ => none

/-- Reads an instruction as `text` writes it. -/
def ofText? (text : String) : Option Instruction :=
  ofWords? ((text.toList.splitOn ' ').map String.ofList)

end Instruction

end Wordlang
