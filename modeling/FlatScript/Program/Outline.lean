import FlatScript.Number.Single
import FlatScript.Program

namespace FlatScript

def outlineLine (depth : Nat) (text : String) : String :=
  .ofList (List.replicate depth '\t') ++ text ++ "\n"

/-- What a mention says about its link, when that is asked for. -/
def linkStatus (linked : Option (NodeId → Bool)) (id : NodeId) : String :=
  match linked with
  | none => ""
  | some linked => if linked id then ", resolved" else ", not resolved"

section

variable (linked : Option (NodeId → Bool))

mutual

def Expr.outline (depth : Nat) : Expr → String
  | .string s => outlineLine depth ("\"" ++ s ++ "\"")
  | .integer n => outlineLine depth (toString n.toInt)
  | .decimal x => outlineLine depth (Single.write .outline x)
  | .boolean b => outlineLine depth (toString b)
  | .null => outlineLine depth "null"
  | .variable id name => outlineLine depth ("Variable " ++ name ++ linkStatus linked id)
  | .call id name args =>
    outlineLine depth ("FunctionCall " ++ name ++ linkStatus linked id) ++
      Expr.outlineAll (depth + 1) args
  | .externalCall module function args =>
    outlineLine depth ("ExternalCall " ++ module ++ "::" ++ function) ++
      Expr.outlineAll (depth + 1) args
  | .binary op left right =>
    outlineLine depth ("Binary " ++ op.symbol) ++ left.outline (depth + 1) ++
      right.outline (depth + 1)

def Expr.outlineAll (depth : Nat) : List Expr → String
  | [] => ""
  | e :: es => e.outline depth ++ Expr.outlineAll depth es

end

mutual

def Statement.outline (depth : Nat) : Statement → String
  | .importFile path => outlineLine depth ("Import " ++ path)
  | .function name body =>
    outlineLine depth ("FunctionDecl " ++ name) ++ outlineLine (depth + 1) "Block" ++
      Statement.outlineAll (depth + 2) body
  | .variable name typeName init =>
    outlineLine depth ("VariableDecl " ++ name ++ ", type " ++ typeName) ++
      match init with
      | some e => e.outline linked (depth + 1)
      | none => outlineLine (depth + 1) "no initialization"
  | .expression e => outlineLine depth "ExpressionStatement" ++ e.outline linked (depth + 1)

def Statement.outlineAll (depth : Nat) : List Statement → String
  | [] => ""
  | s :: ss => s.outline depth ++ Statement.outlineAll depth ss

end

def Program.outline (p : Program) : String :=
  "Program\n" ++ Statement.outlineAll linked 1 p.statements

end

end FlatScript
