namespace FlatScript

/-- Lines and columns count from 1; a column is one character. -/
structure Location where
  line : Nat
  column : Nat
deriving DecidableEq, Repr, Inhabited

namespace Location

def start : Location := ⟨1, 1⟩

def advance (l : Location) (c : Char) : Location :=
  if c = '\n' then ⟨l.line + 1, 1⟩ else ⟨l.line, l.column + 1⟩

/-- The place behind the text `cs` when `cs` begins at `l`. -/
def past (l : Location) (cs : List Char) : Location :=
  cs.foldl advance l

instance : ToString Location where
  toString l := toString l.line ++ ":" ++ toString l.column

@[simp] theorem past_nil (l : Location) : l.past [] = l := rfl

@[simp] theorem past_cons (l : Location) (c : Char) (cs : List Char) :
    l.past (c :: cs) = (l.advance c).past cs := rfl

theorem past_append (l : Location) (as bs : List Char) :
    l.past (as ++ bs) = (l.past as).past bs :=
  List.foldl_append

end Location

end FlatScript
