import FlatScript.Location

namespace FlatScript

inductive Warning
  | unknownCharacter (c : Char) (location : Location)
  /-- A call of `name` runs the builtin, never the declared function. -/
  | shadowedByBuiltin (name : String)
deriving DecidableEq, Repr

def Warning.message : Warning → String
  | .unknownCharacter c location => s!"{location}: can not recognize character '{c}', skipping"
  | .shadowedByBuiltin name => s!"function {name} is shadowed by the builtin of the same name"

end FlatScript
