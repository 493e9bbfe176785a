import Wordlang.Text.Address

/-!
# Faults

What can go wrong when code runs, with the address of the instruction where that is known.
-/

namespace Wordlang

inductive Fault
  | unknownFunction (name : String)
  | wrongArgumentCount (name : String) (expected found : Nat)
  | stackUnderflow (address : Nat)
  | divisionByZero (address : Nat)
  | overflow (address : Nat)
  | callDepthExceeded (limit : Nat)
  | unboundExternal (name : String)
  | undeclaredExternal (name : String)
  | undeclaredGlobal (name : String)
  | invalidAddress (address : Nat)
  | invalidSlot (address slot : Nat)
  deriving DecidableEq, Repr

namespace Fault

def message : Fault → String
  | unknownFunction name => "No function named '" ++ name ++ "'"
  | wrongArgumentCount name expected found =>
    "'" ++ name ++ "' expects " ++ expected.repr ++ " argument(s) but " ++ found.repr ++ " were given"
  | stackUnderflow address => "Stack underflow at " ++ addressText address
  | divisionByZero address => "Division by zero at " ++ addressText address
  | overflow address => "Integer overflow at " ++ addressText address
  | callDepthExceeded limit => "Call depth limit of " ++ limit.repr ++ " exceeded"
  | unboundExternal name => "External function '" ++ name ++ "' is not bound"
  | undeclaredExternal name => "External function '" ++ name ++ "' is not declared"
  | undeclaredGlobal name => "Global '" ++ name ++ "' is not declared"
  | invalidAddress address => "Invalid code address " ++ addressText address
  | invalidSlot address slot => "Invalid frame slot " ++ slot.repr ++ " at " ++ addressText address

end Fault

end Wordlang
