import FlatScript.RuntimeError

namespace FlatScript.Operator

def applyInt (op : Operator) (l r : Int64) : Except RuntimeError Value :=
  match op with
  | .add => .ok (.int (l + r))
  | .subtract => .ok (.int (l - r))
  | .multiply => .ok (.int (l * r))
  | .divide => if r = 0 then .error .divisionByZero else .ok (.int (l / r))
  | .modulo => if r = 0 then .error .divisionByZero else .ok (.int (l % r))
  | .equal => .ok (.bool (l == r))
  | .notEqual => .ok (.bool (l != r))
  | .greater => .ok (.bool (r < l))
  | .greaterEqual => .ok (.bool (r ≤ l))
  | .less => .ok (.bool (l < r))
  | .lessEqual => .ok (.bool (l ≤ r))
  | .bitAnd => .ok (.int (l &&& r))
  | .bitOr => .ok (.int (l ||| r))
  | .bitXor => .ok (.int (l ^^^ r))
  | .shiftLeft => .ok (.int (l <<< r))
  | .shiftRight => .ok (.int (l >>> r))
  | _ => .error (.unsupportedOperation op .int .int)

def applyFloat (op : Operator) (l r : Float32) : Except RuntimeError Value :=
  match op with
  | .add => .ok (.float (l + r))
  | .subtract => .ok (.float (l - r))
  | .multiply => .ok (.float (l * r))
  | .divide => .ok (.float (l / r))
  | .equal => .ok (.bool (l == r))
  | .notEqual => .ok (.bool (l != r))
  | .greater => .ok (.bool (r < l))
  | .greaterEqual => .ok (.bool (r ≤ l))
  | .less => .ok (.bool (l < r))
  | .lessEqual => .ok (.bool (l ≤ r))
  | _ => .error (.unsupportedOperation op .float .float)

def applyString (op : Operator) (l r : String) : Except RuntimeError Value :=
  match op with
  | .add => .ok (.string (l ++ r))
  | .equal => .ok (.bool (l == r))
  | .notEqual => .ok (.bool (l != r))
  | _ => .error (.unsupportedOperation op .string .string)

/-- Both sides of a conjunction or disjunction have been evaluated already. -/
def applyBool (op : Operator) (l r : Bool) : Except RuntimeError Value :=
  match op with
  | .and => .ok (.bool (l && r))
  | .or => .ok (.bool (l || r))
  | .equal => .ok (.bool (l == r))
  | .notEqual => .ok (.bool (l != r))
  | _ => .error (.unsupportedOperation op .bool .bool)

def apply (op : Operator) (left right : Value) : Except RuntimeError Value :=
  match left, right with
  | .int l, .int r => op.applyInt l r
  | .float l, .float r => op.applyFloat l r
  | .string l, .string r => op.applyString l r
  | .bool l, .bool r => op.applyBool l r
  | .string l, .int r =>
    if op = .add then .ok (.string (l ++ Value.text (.int r)))
    else .error (.unsupportedOperation op .string .int)
  | l, r => .error (.unsupportedOperation op l.type r.type)

end FlatScript.Operator
