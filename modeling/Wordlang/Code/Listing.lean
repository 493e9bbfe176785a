import Wordlang.Code.Image

/-!
# Listings

The text of an image: for each function a head line, and for each of its instructions a line with the
address. Functions are separated by an empty line.
-/

namespace Wordlang

namespace Entry

/-- The head line of the function with the given id. -/
def headLine (entry : Entry) (id : Nat) : String :=
  "#" ++ id.repr ++ " " ++ entry.kind.keyword ++ " " ++ entry.name ++ "(args=" ++ entry.params.repr ++
    ", locals=" ++ entry.locals.repr ++ "):\n"

end Entry

/-- The lines of instructions that stand at `address` and behind it. -/
def codeLines (address : Nat) : List Instruction → String
  | [] => ""
  | i :: is => "  " ++ addressText address ++ "  " ++ i.text ++ "\n" ++ codeLines (address + 1) is

namespace Image

/-- The lines of the function with the given id and entry. -/
def functionListing (image : Image) (id : Nat) (entry : Entry) : String :=
  entry.headLine id ++ codeLines entry.address ((image.functionCode? id).getD [])

def listing (image : Image) : String :=
  "\n".intercalate (image.entries.toList.mapIdx image.functionListing)

end Image

end Wordlang
