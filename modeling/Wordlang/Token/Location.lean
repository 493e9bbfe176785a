/-!
# Locations

A location is a line and a column, both counted from one. A line ends behind its line feed.
-/

namespace Wordlang

structure Location where
  line : Nat
  column : Nat
  deriving DecidableEq, Repr

namespace Location

/-- Where every text starts. -/
def start : Location := ⟨1, 1⟩

/-- The location behind a character that stands at `loc`. -/
def advance (loc : Location) (c : Char) : Location :=
  if c = '\n' then ⟨loc.line + 1, 1⟩ else ⟨loc.line, loc.column + 1⟩

/-- The location behind a text that starts at `loc`. -/
def behind (loc : Location) (cs : List Char) : Location := cs.foldl advance loc

@[simp] theorem behind_nil (loc : Location) : loc.behind [] = loc := rfl

@[simp] theorem behind_cons (loc : Location) (c : Char) (cs : List Char) :
    loc.behind (c :: cs) = (loc.advance c).behind cs := rfl

theorem behind_append (loc : Location) (cs ds : List Char) :
    loc.behind (cs ++ ds) = (loc.behind cs).behind ds := List.foldl_append

end Location

end Wordlang
