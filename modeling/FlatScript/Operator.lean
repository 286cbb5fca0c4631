namespace FlatScript

inductive Operator
  | assign | addAssign | subtractAssign | multiplyAssign | divideAssign | moduloAssign
  | bitAndAssign | bitOrAssign | bitXorAssign | tildeAssign
  | or | and | bitOr | bitXor | bitAnd
  | equal | notEqual | greater | greaterEqual | less | lessEqual
  | shiftLeft | shiftRight | add | subtract | multiply | divide | modulo
deriving DecidableEq, Repr

namespace Operator

def all : List Operator :=
  [.assign, .addAssign, .subtractAssign, .multiplyAssign, .divideAssign, .moduloAssign,
    .bitAndAssign, .bitOrAssign, .bitXorAssign, .tildeAssign, .or, .and, .bitOr, .bitXor, .bitAnd,
    .equal, .notEqual, .greater, .greaterEqual, .less, .lessEqual, .shiftLeft, .shiftRight, .add,
    .subtract, .multiply, .divide, .modulo]

def symbol : Operator → String
  | .assign => "="
  | .addAssign => "+="
  | .subtractAssign => "-="
  | .multiplyAssign => "*="
  | .divideAssign => "/="
  | .moduloAssign => "%="
  | .bitAndAssign => "&="
  | .bitOrAssign => "|="
  | .bitXorAssign => "^="
  | .tildeAssign => "~="
  | .or => "||"
  | .and => "&&"
  | .bitOr => "|"
  | .bitXor => "^"
  | .bitAnd => "&"
  | .equal => "=="
  | .notEqual => "!="
  | .greater => ">"
  | .greaterEqual => ">="
  | .less => "<"
  | .lessEqual => "<="
  | .shiftLeft => "<<"
  | .shiftRight => ">>"
  | .add => "+"
  | .subtract => "-"
  | .multiply => "*"
  | .divide => "/"
  | .modulo => "%"

def name : Operator → String
  | .assign => "Assign"
  | .addAssign => "AddAssign"
  | .subtractAssign => "SubtractAssign"
  | .multiplyAssign => "MultiplyAssign"
  | .divideAssign => "DivideAssign"
  | .moduloAssign => "ModuloAssign"
  | .bitAndAssign => "BitAndAssign"
  | .bitOrAssign => "BitOrAssign"
  | .bitXorAssign => "BitXorAssign"
  | .tildeAssign => "TildeAssign"
  | .or => "Or"
  | .and => "And"
  | .bitOr => "BitOr"
  | .bitXor => "BitXor"
  | .bitAnd => "BitAnd"
  | .equal => "Equal"
  | .notEqual => "NotEqual"
  | .greater => "Greater"
  | .greaterEqual => "GreaterEqual"
  | .less => "Less"
  | .lessEqual => "LessEqual"
  | .shiftLeft => "ShiftLeft"
  | .shiftRight => "ShiftRight"
  | .add => "Add"
  | .subtract => "Subtract"
  | .multiply => "Multiply"
  | .divide => "Divide"
  | .modulo => "Modulo"

/-- A greater precedence binds tighter. -/
def precedence : Operator → Nat
  | .assign | .addAssign | .subtractAssign | .multiplyAssign | .divideAssign | .moduloAssign
  | .bitAndAssign | .bitOrAssign | .bitXorAssign | .tildeAssign => 2
  | .or => 4
  | .and => 5
  | .bitOr => 6
  | .bitXor => 7
  | .bitAnd => 8
  | .equal | .notEqual => 9
  | .greater | .greaterEqual | .less | .lessEqual => 10
  | .shiftLeft | .shiftRight => 11
  | .add | .subtract => 12
  | .multiply | .divide | .modulo => 13

def maxPrecedence : Nat := 13

def isAssignment : Operator → Bool
  | .assign | .addAssign | .subtractAssign | .multiplyAssign | .divideAssign | .moduloAssign
  | .bitAndAssign | .bitOrAssign | .bitXorAssign | .tildeAssign => true
  | _ => false

/-- The operator that an assignment applies to the old value before it stores the result. -/
def base? : Operator → Option Operator
  | .addAssign => some .add
  | .subtractAssign => some .subtract
  | .multiplyAssign => some .multiply
  | .divideAssign => some .divide
  | .moduloAssign => some .modulo
  | .bitAndAssign => some .bitAnd
  | .bitOrAssign => some .bitOr
  | .bitXorAssign => some .bitXor
  | _ => none

def ofSymbol? (symbol : String) : Option Operator := all.find? (·.symbol = symbol)

theorem precedence_le (op : Operator) : op.precedence ≤ maxPrecedence := by cases op <;> decide

theorem precedence_pos (op : Operator) : 0 < op.precedence := by cases op <;> decide

theorem ofSymbol_symbol (op : Operator) : ofSymbol? op.symbol = some op := by cases op <;> rfl

theorem symbol_of_ofSymbol {s : String} {op : Operator} (h : ofSymbol? s = some op) :
    op.symbol = s := by
  simpa using List.find?_some h

end Operator

end FlatScript
