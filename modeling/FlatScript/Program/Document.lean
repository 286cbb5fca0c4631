import FlatScript.Json
import FlatScript.Number.Single
import FlatScript.Program

namespace FlatScript

mutual

def Expr.toJson : Expr → Json
  | .string s => .record [("StringLiteral", .string s)]
  | .integer n => .record [("IntegerLiteral", .number (toString n.toInt))]
  | .decimal x => .record [("DecimalLiteral", ((Single.writeJson? x).map Json.number).getD .null)]
  | .boolean b => .record [("BooleanLiteral", .bool b)]
  | .null => .string "NullLiteral"
  | .variable id name => .record [("Variable", .record [("id", .nat id), ("name", .string name)])]
  | .call id name args =>
    .record [("FunctionCall", .record
      [("id", .nat id), ("name", .string name), ("args", .array (Expr.toJsonAll args))])]
  | .externalCall module function args =>
    .record [("ExternalCall", .record
      [("module", .string module), ("function", .string function),
        ("args", .array (Expr.toJsonAll args))])]
  | .binary op left right =>
    .record [("Binary", .record
      [("op", .string op.name), ("left", left.toJson), ("right", right.toJson)])]

def Expr.toJsonAll : List Expr → List Json
  | [] => []
  | e :: es => e.toJson :: Expr.toJsonAll es

end

mutual

def Statement.toJson : Statement → Json
  | .importFile path => .record [("Import", .record [("path", .string path)])]
  | .function name body =>
    .record [("Function", .record
      [("name", .string name),
        ("body", .record [("statements", .array (Statement.toJsonAll body))])])]
  | .variable name typeName init =>
    .record [("Variable", .record
      [("name", .string name), ("type_name", .string typeName),
        ("init", (init.map Expr.toJson).getD .null)])]
  | .expression e => .record [("Expression", e.toJson)]

def Statement.toJsonAll : List Statement → List Json
  | [] => []
  | s :: ss => s.toJson :: Statement.toJsonAll ss

end

def Program.toJson (p : Program) : Json :=
  .record [("statements", .array (Statement.toJsonAll p.statements))]

end FlatScript
