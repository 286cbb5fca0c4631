import FlatScript.Number.Single

namespace FlatScript

/-- An error is a value too: a failure that a program can go on from. -/
inductive Value
  | int (n : Int64)
  | float (x : Float32)
  | string (s : String)
  | bool (b : Bool)
  | nil
  | error (message : String)
deriving DecidableEq, Inhabited

inductive ValueType
  | int
  | float
  | string
  | bool
  | nil
  | error
deriving DecidableEq, Repr

def ValueType.name : ValueType → String
  | .int => "int"
  | .float => "float"
  | .string => "string"
  | .bool => "bool"
  | .nil => "nil"
  | .error => "error"

namespace Value

def type : Value → ValueType
  | .int _ => .int
  | .float _ => .float
  | .string _ => .string
  | .bool _ => .bool
  | .nil => .nil
  | .error _ => .error

def text : Value → String
  | .int n => toString n.toInt
  | .float x => Single.write .plain x
  | .string s => s
  | .bool b => toString b
  | .nil => "nil"
  | .error message => "error: " ++ message

end Value

end FlatScript
