import Wordlang.Check.Error

/-!
# Signatures: `SignatureTable`

The functions of a program by name, in the order of their declaration. A function's id is its place in
that order.
-/

namespace Wordlang

structure Signature where
  id : Nat
  arity : Nat
  kind : FunctionKind
  deriving DecidableEq, Repr

abbrev Signatures := List (String × Signature)

namespace Signatures

def get? (table : Signatures) (name : String) : Option Signature := table.lookup name

/-- Adds a function, whose name must be new, under the next id. -/
def register (table : Signatures) (f : Function) : Except CompileError (Signature × Signatures) :=
  match table.get? f.name with
  | some _ => .error ⟨f.name, .functionRedefined⟩
  | none =>
    let signature : Signature := ⟨table.length, f.params.length, f.kind⟩
    .ok (signature, table ++ [(f.name, signature)])

end Signatures

end Wordlang
