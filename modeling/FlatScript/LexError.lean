import FlatScript.Location

namespace FlatScript

inductive LexError.Cause
  | unterminatedString
  | unterminatedComment
  | leadingZero
deriving DecidableEq, Repr

structure LexError where
  cause : LexError.Cause
  location : Location
deriving DecidableEq, Repr

namespace LexError

def Cause.message : Cause → String
  | .unterminatedString => "Unterminated string literal"
  | .unterminatedComment => "Unterminated comment, no matching */"
  | .leadingZero => "0 cannot be followed by another digit"

def message (e : LexError) : String := s!"{e.location}: {e.cause.message}"

end LexError

end FlatScript
