import FlatScript.Operator

namespace FlatScript

/-- The number of a mention. Numbers have no bound here; 32 bits hold those of every program with
fewer than `2 ^ 32` mentions. -/
abbrev NodeId := Nat

inductive Expr
  | string (s : String)
  | integer (n : Int64)
  | decimal (x : Float32)
  | boolean (b : Bool)
  | null
  | variable (id : NodeId) (name : String)
  | call (id : NodeId) (name : String) (args : List Expr)
  | externalCall (module function : String) (args : List Expr)
  | binary (op : Operator) (left right : Expr)
deriving Inhabited

inductive Statement
  | importFile (path : String)
  | function (name : String) (body : List Statement)
  | variable (name typeName : String) (init : Option Expr)
  | expression (e : Expr)
deriving Inhabited

structure Program where
  statements : List Statement
deriving Inhabited

end FlatScript
