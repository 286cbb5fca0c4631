namespace FlatScript

/-- The bytes written so far, and how many more there is room for; without `room` there is no
limit. What has been written is out: there is nothing to flush at the end of a run, and so no flush
that could fail. -/
structure Output where
  bytes : ByteArray := .empty
  room : Option Nat := none

namespace Output

/-- Stores as much as there is room for, and tells whether that is all. -/
def write (out : Output) (text : String) : Bool × Output :=
  let new := text.toUTF8
  match out.room with
  | none => (true, { out with bytes := out.bytes ++ new })
  | some room =>
    (new.size ≤ room, ⟨out.bytes ++ new.extract 0 room, some (room - new.size)⟩)

end Output

end FlatScript
