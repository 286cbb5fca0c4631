import FlatScript.Program

namespace FlatScript

abbrev SymbolId := Nat

inductive Declaration
  | function (body : List Statement)
  | variable
deriving Inhabited

structure Symbol where
  name : String
  declaration : Declaration
deriving Inhabited

def Declaration.kindName : Declaration → String
  | .function _ => "Function"
  | .variable => "Variable"

inductive ResolveError
  | duplicateSymbol (name : String)
  | undefinedFunction (name : String)
  | notAFunction (name : String)
  | undefinedVariable (name : String)
  | notAVariable (name : String)
deriving DecidableEq, Repr

def ResolveError.message : ResolveError → String
  | .duplicateSymbol name => s!"Duplicate symbol: {name}"
  | .undefinedFunction name => s!"Cannot find declaration of function {name}"
  | .notAFunction name => s!"'{name}' is not a function"
  | .undefinedVariable name => s!"Cannot find declaration of variable {name}"
  | .notAVariable name => s!"'{name}' is not a variable"

/-- Symbols in the order in which they were entered; a symbol's place is its id. -/
structure SymbolTable where
  symbols : List Symbol := []
deriving Inhabited

namespace SymbolTable

def size (t : SymbolTable) : Nat := t.symbols.length

def lookup (t : SymbolTable) (name : String) : Option SymbolId :=
  t.symbols.findIdx? (·.name == name)

def get? (t : SymbolTable) (id : SymbolId) : Option Symbol := t.symbols[id]?

def enter (t : SymbolTable) (s : Symbol) : Except ResolveError SymbolTable :=
  if (t.lookup s.name).isSome then .error (.duplicateSymbol s.name)
  else .ok ⟨t.symbols ++ [s]⟩

end SymbolTable

end FlatScript
