/-!
# Code addresses as text

Addresses are written in decimal with at least four digits.
-/

namespace Wordlang

/-- Decimal text of an address, filled up with zeros to four digits. -/
def addressText (address : Nat) : String :=
  String.ofList ((Nat.toDigits 10 address).leftpad 4 '0')

end Wordlang
