import FlatScript.Location
import FlatScript.Text.Han

namespace FlatScript

inductive Token.Kind
  | keyword
  | identifier
  | stringLiteral
  | integerLiteral
  | decimalLiteral
  | nullLiteral
  | booleanLiteral
  | separator
  | operator
  | eof
deriving DecidableEq, Repr, Inhabited

/-- A string literal's text is without its quotes; the text of the end of input is empty. -/
structure Token where
  kind : Token.Kind
  text : String
  location : Location
deriving DecidableEq, Repr, Inhabited

namespace Token

def eof (l : Location) : Token := ⟨.eof, "", l⟩

def isEof (t : Token) : Bool := t.kind == .eof

def isSeparator (t : Token) (text : String) : Bool := t.kind == .separator && t.text == text

def isOperator (t : Token) (text : String) : Bool := t.kind == .operator && t.text == text

def Kind.name : Kind → String
  | .keyword => "Keyword"
  | .identifier => "Identifier"
  | .stringLiteral => "StringLiteral"
  | .integerLiteral => "IntegerLiteral"
  | .decimalLiteral => "DecimalLiteral"
  | .nullLiteral => "NullLiteral"
  | .booleanLiteral => "BooleanLiteral"
  | .separator => "Separator"
  | .operator => "Operator"
  | .eof => "Eof"

end Token

def keywords : List String :=
  ["import", "class", "interface", "new", "impl", "pub", "isinstance", "type", "fn", "return",
    "static", "if", "else", "switch", "case", "for", "continue", "break", "yield", "let", "this",
    "in", "with", "try", "catch", "throw", "finally"]

def isWordStart (c : Char) : Bool := c.isAlpha || c == '_' || Text.isHan c

def isWordPart (c : Char) : Bool := isWordStart c || c.isDigit

def Token.Kind.ofWord (word : String) : Token.Kind :=
  if word = "null" then .nullLiteral
  else if word = "true" ∨ word = "false" then .booleanLiteral
  else if word ∈ keywords then .keyword
  else .identifier

end FlatScript
