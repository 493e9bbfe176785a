import Wordlang.Code.Instruction

/-!
# Images: `CompiledProgram`

An image is the code of all functions in one sequence, with an entry for each function that says where its
code starts and how large its frame is. The code of a function reaches up to the next entry's.
-/

namespace Wordlang

structure Entry where
  name : String
  params : Nat
  locals : Nat
  kind : FunctionKind
  address : Nat
  deriving DecidableEq, Repr

structure Image where
  code : Array Instruction := #[]
  entries : Array Entry := #[]
  deriving DecidableEq, Repr

namespace Image

/-- The first function of the given name, with its id. -/
def find? (image : Image) (name : String) : Option (Nat × Entry) := do
  let id ← image.entries.findIdx? (·.name == name)
  let entry ← image.entries[id]?
  return (id, entry)

/-- The address behind the code of a function. -/
def codeEnd (image : Image) (id : Nat) : Nat :=
  match image.entries[id + 1]? with
  | some entry => entry.address
  | none => image.code.size

/-- The code of a function, if its entry and the next mark off a part of the code (`function_code`). -/
def functionCode? (image : Image) (id : Nat) : Option (List Instruction) := do
  let entry ← image.entries[id]?
  let stop := image.codeEnd id
  if entry.address ≤ stop ∧ stop ≤ image.code.size then
    some (image.code.extract entry.address stop).toList
  else none

end Image

end Wordlang
