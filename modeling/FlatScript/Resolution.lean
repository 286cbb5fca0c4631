import FlatScript.Builtin
import FlatScript.SymbolTable
import FlatScript.Warning

namespace FlatScript

mutual

/-- The declarations in a statement, a function before those in its body. -/
def Statement.declarations : Statement → List Symbol
  | .function name body => ⟨name, .function body⟩ :: Statement.declarationsAll body
  | .variable name _ _ => [⟨name, .variable⟩]
  | .importFile _ | .expression _ => []

def Statement.declarationsAll : List Statement → List Symbol
  | [] => []
  | s :: ss => s.declarations ++ Statement.declarationsAll ss

end

inductive MentionRole
  | variable
  | call
deriving DecidableEq, Repr

structure Mention where
  id : NodeId
  name : String
  role : MentionRole
deriving DecidableEq, Repr

mutual

def Expr.mentions : Expr → List Mention
  | .string _ | .integer _ | .decimal _ | .boolean _ | .null => []
  | .variable id name => [⟨id, name, .variable⟩]
  | .call id name args => ⟨id, name, .call⟩ :: Expr.mentionsAll args
  | .externalCall _ _ args => Expr.mentionsAll args
  | .binary _ left right => left.mentions ++ right.mentions

def Expr.mentionsAll : List Expr → List Mention
  | [] => []
  | e :: es => e.mentions ++ Expr.mentionsAll es

end

mutual

def Statement.mentions : Statement → List Mention
  | .importFile _ => []
  | .function _ body => Statement.mentionsAll body
  | .variable _ _ none => []
  | .variable _ _ (some e) => e.mentions
  | .expression e => e.mentions

def Statement.mentionsAll : List Statement → List Mention
  | [] => []
  | s :: ss => s.mentions ++ Statement.mentionsAll ss

end

/-- Links from mentions to symbols, in descending order of the mentions' numbers. -/
abbrev Links := List (NodeId × SymbolId)

namespace Links

def get? (links : Links) (id : NodeId) : Option SymbolId :=
  (links.find? (·.1 == id)).map (·.2)

def insert (id : NodeId) (symbol : SymbolId) : Links → Links
  | [] => [(id, symbol)]
  | link :: links =>
    if link.1 < id then (id, symbol) :: link :: links
    else if id = link.1 then (id, symbol) :: links
    else link :: insert id symbol links

end Links

namespace SymbolTable

/-- Enters symbols one after the other. A function named like a builtin is warned about, also when
its name is taken. -/
def enterAll : List Symbol → SymbolTable → Except ResolveError SymbolTable × List Warning
  | [], t => (.ok t, [])
  | s :: ss, t =>
    let warnings :=
      match s.declaration with
      | .function _ => if isBuiltin s.name then [.shadowedByBuiltin s.name] else []
      | .variable => []
    match t.enter s with
    | .error e => (.error e, warnings)
    | .ok t =>
      let (result, later) := enterAll ss t
      (result, warnings ++ later)

/-- The symbol that a mention is linked to; calls of builtins need none. -/
def link? (t : SymbolTable) (m : Mention) : Except ResolveError (Option SymbolId) :=
  let found := t.lookup m.name
  match m.role, found.bind t.get? with
  | .variable, none => .error (.undefinedVariable m.name)
  | .variable, some ⟨_, .variable⟩ => .ok found
  | .variable, some ⟨_, .function _⟩ => .error (.notAVariable m.name)
  | .call, some ⟨_, .function _⟩ => .ok found
  | .call, some ⟨_, .variable⟩ =>
    if isBuiltin m.name then .ok none else .error (.notAFunction m.name)
  | .call, none => if isBuiltin m.name then .ok none else .error (.undefinedFunction m.name)

def linkAll (t : SymbolTable) : List Mention → Links → Except ResolveError Links
  | [], links => .ok links
  | m :: ms, links =>
    match t.link? m with
    | .error e => .error e
    | .ok none => linkAll t ms links
    | .ok (some symbol) => linkAll t ms (links.insert m.id symbol)

end SymbolTable

structure Resolution where
  symbols : SymbolTable := {}
  links : Links := []
deriving Inhabited

namespace Resolution

def symbolFor? (r : Resolution) (id : NodeId) : Option Symbol :=
  (r.links.get? id).bind r.symbols.get?

def functionFor? (r : Resolution) (id : NodeId) : Option (List Statement) :=
  match r.symbolFor? id with
  | some ⟨_, .function body⟩ => some body
  | _ => none

def resolvedCount (r : Resolution) : Nat := r.links.length

def isLinked (r : Resolution) (id : NodeId) : Bool := (r.symbolFor? id).isSome

def references (r : Resolution) : List (NodeId × Symbol) :=
  r.links.reverse.filterMap fun (id, symbol) => (r.symbols.get? symbol).map (id, ·)

end Resolution

def Program.resolve (p : Program) : Except ResolveError Resolution × List Warning :=
  let (entered, warnings) := SymbolTable.enterAll (Statement.declarationsAll p.statements) {}
  let result :=
    match entered with
    | .error e => .error e
    | .ok symbols =>
      match symbols.linkAll (Statement.mentionsAll p.statements) [] with
      | .error e => .error e
      | .ok links => .ok ⟨symbols, links⟩
  (result, warnings)

end FlatScript
