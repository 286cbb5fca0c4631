import FlatScript.Shell.Pattern

namespace FlatScript.Shell

inductive Division
  | nowhere
  | atSeparators
  /-- Where one argument of the script ends and the next one begins, which a NUL marks. -/
  | atEnds
deriving DecidableEq, Repr

/-- A stretch of an expanded word. A quotation mark has no text, but shows that there is a field
even if it is empty. -/
inductive Piece
  | mark
  | text (literal : Bool) (division : Division) (text : Octets)
deriving Repr

namespace Piece

def toText : Piece → Octets
  | .mark => []
  | .text _ _ t => t

def toGlyphs : Piece → List Glyph
  | .mark => []
  | .text literal _ t => t.map (⟨·, literal⟩)

def join (pieces : List Piece) : Octets := pieces.flatMap toText

def toPattern (pieces : List Piece) : Pattern := .ofGlyphs (pieces.flatMap toGlyphs)

end Piece

structure Splitting where
  fields : List Octets := []
  current : Octets := []
  marked : Bool := false
  behindBlank : Bool := false
  last : Division := .nowhere
  room : Option Nat := none
  cut : Option Nat := none

namespace Splitting

def add (s : Splitting) (c : Char) : Splitting :=
  { s with current := c :: s.current, behindBlank := false }

def close (s : Splitting) : Splitting :=
  { s with fields := s.current.reverse :: s.fields, current := [], marked := false }

def isOpen (s : Splitting) : Bool := s.marked || !s.current.isEmpty

/-- A separator ends a field. Blank separators at the beginning do not count, nor do those around
another separator, and a row of them counts once; unless the stretch is behind one that is divided
`atEnds`, as `afterEnds` tells. -/
def step (separators : Octets) (afterEnds : Bool) (s : Splitting) (c : Char) : Splitting :=
  let separates := c == '\x00' || separators.contains c
  let blank := separates && (c == '\x00' || isBlank c)
  let ended (s : Splitting) : Splitting :=
    let s := { s with behindBlank := blank && !afterEnds }
    if !s.isOpen && s.behindBlank then { s with behindBlank := false }
    else
      match s.room with
      | some 1 => { s with current := c :: s.current, room := some 0, cut := s.current.length }
      | some n => { s.close with room := some (n - 1) }
      | none => s.close
  if s.room == some 0 then
    let s' := { s with current := c :: s.current }
    if blank then { s' with cut := some (s.cut.getD s.current.length) }
    else
      { s' with behindBlank := false, cut := if separates && s.behindBlank then s.cut else none }
  else if separates then
    if !s.behindBlank then ended s else if blank then s else { s with behindBlank := false }
  else s.add c

def piece (separators : Octets) (s : Splitting) : Piece → Splitting
  | .mark => { s with marked := true }
  | .text _ .nowhere text => { s with current := text.reverse ++ s.current }
  | .text _ division text =>
    let atEnds := division == .atEnds
    let afterEnds := atEnds || s.last == .atEnds
    let s := { s with behindBlank := false, last := division }
    text.foldl (step (if atEnds then [] else separators) afterEnds) s

/-- All fields. The open one counts if there is something in it, or if it is an argument. -/
def finish (s : Splitting) : List Octets :=
  let s :=
    match s.cut with
    | some n =>
      if s.last = Division.atEnds then s
      else { s with current := s.current.drop (s.current.length - n), marked := false }
    | none => s
  (if s.isOpen ∨ s.last = Division.atEnds then s.close else s).fields.reverse

end Splitting

def splitFields (separators : Octets) (room : Option Nat) (pieces : List Piece) : List Octets :=
  (pieces.foldl (Splitting.piece separators) { room }).finish

end FlatScript.Shell
