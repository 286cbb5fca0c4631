import FlatScript.Location

namespace FlatScript

structure Cursor where
  rest : List Char
  location : Location := .start
deriving DecidableEq, Repr, Inhabited

namespace Cursor

def ofString (text : String) : Cursor := ⟨text.toList, .start⟩

def peek? (c : Cursor) : Option Char := c.rest.head?

def peekNext? (c : Cursor) : Option Char := c.rest[1]?

def atEnd (c : Cursor) : Bool := c.rest.isEmpty

/-- Takes one character; at the end of the text the cursor stays where it is. -/
def next? (c : Cursor) : Option Char × Cursor :=
  match c.rest with
  | [] => (none, c)
  | ch :: rest => (some ch, ⟨rest, c.location.advance ch⟩)

def moveTo (c : Cursor) (taken rest : List Char) : Cursor :=
  ⟨rest, c.location.past taken⟩

end Cursor

end FlatScript
