import FlatScript.LexError

namespace FlatScript

inductive Expectation
  | statement
  | expression
  | importPath
  | functionName
  | parametersOpening
  | parametersClosing
  | bodyOpening
  | bodyClosing
  | variableName
  | typeName
  | calledName
  | moduleName
  | moduleSeparator
  | externalName
  | argumentsOpening
  | argumentsGoingOn
  | groupClosing
deriving DecidableEq, Repr

def Expectation.phrase : Expectation → String
  | .statement => "a statement"
  | .expression => "an expression"
  | .importPath => "an import path string"
  | .functionName => "function name after 'fn'"
  | .parametersOpening => "'(' after the function name"
  | .parametersClosing => "')' in function declaration"
  | .bodyOpening => "'\x7b' to open the function body"
  | .bodyClosing => "'\x7d' to close the function body"
  | .variableName => "variable name after 'let'"
  | .typeName => "type name after '::'"
  | .calledName => "function name"
  | .moduleName => "module name"
  | .moduleSeparator => "'::' after the module name"
  | .externalName => "function name after '::'"
  | .argumentsOpening => "'(' to open the argument list"
  | .argumentsGoingOn => "',' or ')' in argument list"
  | .groupClosing => "')' to close the parenthesized expression"

inductive NumberKind
  | integer
  | decimal
deriving DecidableEq, Repr

def NumberKind.name : NumberKind → String
  | .integer => "integer"
  | .decimal => "decimal"

inductive ParseError
  | lex (e : LexError)
  | unexpectedToken (expected : Expectation) (found : String) (location : Location)
  | unexpectedEof (expected : Expectation) (location : Location)
  | invalidLiteral (kind : NumberKind) (text : String) (location : Location)
  | invalidImportPath (path extension : String) (location : Location)
  | reservedKeyword (keyword : String) (location : Location)
  | nestingTooDeep (limit : Nat) (location : Location)
deriving DecidableEq, Repr

namespace ParseError

def message : ParseError → String
  | .lex e => e.message
  | .unexpectedToken expected found location =>
    s!"{location}: Expected {expected.phrase}, found '{found}'"
  | .unexpectedEof expected location =>
    s!"{location}: Unexpected end of file, expected {expected.phrase}"
  | .invalidLiteral kind text location => s!"{location}: Invalid {kind.name} literal '{text}'"
  | .invalidImportPath path extension location =>
    s!"{location}: Import path '{path}' must end with '{extension}'"
  | .reservedKeyword keyword location =>
    s!"{location}: '{keyword}' is reserved but not yet supported"
  | .nestingTooDeep limit location => s!"{location}: Nesting deeper than {limit} levels"

end ParseError

end FlatScript
