import Wordlang.Syntax.Tree

/-!
# Compile errors

What is wrong with a program whose text is in order: each error belongs to one of its functions.
-/

namespace Wordlang

inductive CompileError.Cause
  | functionRedefined
  | duplicateName (name : String)
  | wrongReturn (kind : FunctionKind)
  | unreachableCode
  | incompleteReturns
  | voidValue (callee : String)
  | unresolved (name : String)
  | wrongArity (callee : String) (expected found : Nat)
  deriving DecidableEq, Repr

/-- An error in the function of the given name. -/
structure CompileError where
  function : String
  cause : CompileError.Cause
  deriving DecidableEq, Repr

namespace CompileError

def message : CompileError → String
  | ⟨f, .functionRedefined⟩ => "Function '" ++ f ++ "' is already defined"
  | ⟨f, .duplicateName name⟩ => "Name '" ++ name ++ "' is declared more than once in '" ++ f ++ "'"
  | ⟨f, .wrongReturn .func⟩ => "Function '" ++ f ++ "' must return a value"
  | ⟨f, .wrongReturn .proc⟩ => "Procedure '" ++ f ++ "' cannot return a value"
  | ⟨f, .unreachableCode⟩ => "Unreachable code in '" ++ f ++ "'"
  | ⟨f, .incompleteReturns⟩ => "Not all code paths return a value in '" ++ f ++ "'"
  | ⟨f, .voidValue callee⟩ =>
    "Call to '" ++ callee ++ "' produces no value but one is required in '" ++ f ++ "'"
  | ⟨f, .unresolved name⟩ => "Unresolved symbol '" ++ name ++ "' in '" ++ f ++ "'"
  | ⟨f, .wrongArity callee expected found⟩ =>
    "'" ++ callee ++ "' expects " ++ expected.repr ++ " argument(s) but " ++ found.repr ++
      " were given in '" ++ f ++ "'"

end CompileError

/-- Names the function in which a check failed. -/
def inFunction {α : Type} (f : Function) (result : Except CompileError.Cause α) : Except CompileError α :=
  result.mapError (⟨f.name, ·⟩)

end Wordlang
