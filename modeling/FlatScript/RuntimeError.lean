import FlatScript.Builtin
import FlatScript.Operator
import FlatScript.Value

namespace FlatScript

inductive RuntimeError
  | unsupportedOperation (op : Operator) (left right : ValueType)
  | invalidAssignmentTarget (op : Operator)
  | divisionByZero
  | builtinArity (builtin : Builtin) (expected found : Nat)
  | externalCall (module function : String)
  | unresolvedCall (name : String)
  | callDepthExceeded (name : String) (limit : Nat)
  /-- The output took only a part of what was written. -/
  | outputFull
deriving DecidableEq, Repr

def RuntimeError.message : RuntimeError → String
  | .unsupportedOperation op left right =>
    s!"Unsupported binary operation: {left.name} {op.symbol} {right.name}"
  | .invalidAssignmentTarget op =>
    s!"Assignment with '{op.symbol}' needs a variable on the left side"
  | .divisionByZero => "Division by zero"
  | .builtinArity builtin expected found =>
    s!"Builtin '{builtin.name}' expects {expected} argument(s), got {found}"
  | .externalCall module function =>
    s!"External call {module}::{function} is not supported by the interpreter"
  | .unresolvedCall name => s!"Call to unresolved function {name}"
  | .callDepthExceeded name limit => s!"Call to {name} exceeds the maximum call depth of {limit}"
  | .outputFull => "Output error: failed to write whole buffer"

end FlatScript
