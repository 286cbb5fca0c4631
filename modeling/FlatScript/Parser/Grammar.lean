import FlatScript.Number.Single
import FlatScript.Parser.Basic

namespace FlatScript.Parser

variable {σ : Type} [TokenSource σ]

def maxNesting : Nat := 128

def importExtension : String := ".rs"

def defaultTypeName : String := "any"

def tooDeep {α : Type} : Parser σ α := do
  let t ← peek
  fail (.nestingTooDeep maxNesting t.location)

def identifier (expected : Expectation) : Parser σ String := do
  let t ← next
  if t.kind = .identifier then return t.text
  unexpected expected t

def separator (text : String) (expected : Expectation) : Parser σ Unit := do
  let t ← next
  if t.isSeparator text then return
  unexpected expected t

def literal? (t : Token) : Option (Except ParseError Expr) :=
  match t.kind with
  | .integerLiteral =>
    match readInt64? t.text.toList with
    | some n => some (.ok (.integer n))
    | none => some (.error (.invalidLiteral .integer t.text t.location))
  | .decimalLiteral =>
    match Decimal.read? t.text.toList with
    | some d => some (.ok (.decimal (Single.ofDecimal d)))
    | none => some (.error (.invalidLiteral .decimal t.text t.location))
  | .stringLiteral => some (.ok (.string t.text))
  | .booleanLiteral => some (.ok (.boolean (t.text == "true")))
  | .nullLiteral => some (.ok .null)
  | _ => none

def tighter? (min : Nat) (t : Token) : Option { op : Operator // min < op.precedence } :=
  if t.kind = .operator then
    match Operator.ofSymbol? t.text with
    | some op => if h : min < op.precedence then some ⟨op, h⟩ else none
    | none => none
  else none

section Expressions

variable (expression : Parser σ Expr)

def arguments : Parser σ (List Expr) := do
  separator "(" .argumentsOpening
  if ← skip? ")" then return []
  let first ← expression
  let rest ← many (fun t => if t.isSeparator "," then some () else none) fun _ => expression
  separator ")" .argumentsGoingOn
  return first :: rest

/-- What begins with a name; the token behind the name tells which of the three forms it is. -/
def reference : Parser σ Expr := do
  let after ← peek2
  let name ← identifier (if after.isSeparator "::" then .moduleName else .calledName)
  if after.isSeparator "::" then
    separator "::" .moduleSeparator
    let function ← identifier .externalName
    return .externalCall name function (← arguments expression)
  else
    let id ← fresh
    if after.isSeparator "(" then return .call id name (← arguments expression)
    return .variable id name

def group : Parser σ Expr := do
  separator "(" .groupClosing
  let e ← expression
  separator ")" .groupClosing
  return e

def operand : Parser σ Expr := do
  let t ← peek
  if t.kind = .identifier then reference expression
  else if t.isSeparator "(" then group expression
  else
    match ← accept? literal? with
    | some e => ofExcept e
    | none => unexpected .expression t

/-- An operand with the operators behind it that bind tighter than `min`, each with a right side
that takes the operators that bind tighter still. -/
def chain (min : Nat) : Parser σ Expr := do
  let first ← operand expression
  let rest ← many (tighter? min) fun op => do return (op.val, ← chain op.val.precedence)
  return rest.foldl (fun left (op, right) => .binary op left right) first
termination_by Operator.maxPrecedence - min
decreasing_by
  have := op.val.precedence_le
  have := op.property
  omega

end Expressions

/-- An expression on a level of its own. -/
def expression : Nat → Parser σ Expr
  | 0 => tooDeep
  | levels + 1 => chain (expression levels) 0

section Statements

variable (expression : Parser σ Expr) (body : Parser σ (List Statement))

def importStatement : Parser σ Statement := do
  let _ ← next
  let t ← next
  if t.kind = .stringLiteral then
    if importExtension.toList.isSuffixOf t.text.toList then
      let _ ← skip? ";"
      return .importFile t.text
    fail (.invalidImportPath t.text importExtension t.location)
  unexpected .importPath t

def functionStatement : Parser σ Statement := do
  let _ ← next
  let name ← identifier .functionName
  separator "(" .parametersOpening
  separator ")" .parametersClosing
  separator "\x7b" .bodyOpening
  let statements ← body
  separator "\x7d" .bodyClosing
  return .function name statements

def variableStatement : Parser σ Statement := do
  let _ ← next
  let name ← identifier .variableName
  let typeName ← if ← skip? "::" then identifier .typeName else pure defaultTypeName
  let assigned ← accept? fun t => if t.isOperator "=" then some () else none
  let init ← if assigned.isSome then some <$> expression else pure none
  let _ ← skip? ";"
  return .variable name typeName init

def expressionStatement : Parser σ Statement := do
  let e ← expression
  let _ ← skip? ";"
  return .expression e

def beginsExpression (t : Token) : Bool :=
  match t.kind with
  | .identifier | .stringLiteral | .integerLiteral | .decimalLiteral | .nullLiteral
  | .booleanLiteral => true
  | _ => t.isSeparator "("

def statement : Parser σ Statement := do
  let t ← peek
  if t.kind = .keyword then
    if t.text = "import" then importStatement
    else if t.text = "fn" then functionStatement body
    else if t.text = "let" then variableStatement expression
    else fail (.reservedKeyword t.text t.location)
  else if beginsExpression t then expressionStatement expression
  else unexpected .statement t

end Statements

theorem tooDeep_consumes {α : Type} : (tooDeep : Parser σ α).Consumes :=
  .bind_right _ fun _ => consumes_fail _

theorem identifier_consumes (expected : Expectation) :
    (identifier expected : Parser σ String).Consumes := by
  refine consumes_next_bind fun t he => ?_
  have hk : t.kind ≠ .identifier := by
    intro hk
    simp [Token.isEof, hk] at he
  rw [if_neg hk]
  exact consumes_unexpected _ _

theorem separator_consumes (text : String) (expected : Expectation) :
    (separator text expected : Parser σ Unit).Consumes := by
  refine consumes_next_bind fun t he => ?_
  have hk : ¬ t.isSeparator text = true := by
    have hk : t.kind = .eof := eq_of_beq he
    simp [Token.isSeparator, hk]
  rw [if_neg hk]
  exact consumes_unexpected _ _

theorem operand_consumes (expression : Parser σ Expr) : (operand expression).Consumes := by
  refine .bind_right _ fun t => .ite ?_ (.ite ?_ ?_)
  · exact .bind_right _ fun _ => .bind_left (identifier_consumes _) _
  · exact .bind_left (separator_consumes _ _) _
  · exact consumes_accept_bind (consumes_unexpected _ _)

theorem chain_consumes (expression : Parser σ Expr) (min : Nat) :
    (chain expression min).Consumes := by
  rw [chain]
  exact .bind_left (operand_consumes expression) _

theorem expression_consumes (levels : Nat) : (expression levels : Parser σ Expr).Consumes := by
  cases levels with
  | zero => exact tooDeep_consumes
  | succ levels => exact chain_consumes _ _

theorem statement_consumes {expression : Parser σ Expr} (h : expression.Consumes)
    (body : Parser σ (List Statement)) : (statement expression body).Consumes := by
  refine .bind_right _ fun t => .ite (.ite ?_ (.ite ?_ (.ite ?_ ?_))) (.ite ?_ ?_)
  · refine .bind_right _ fun _ => consumes_next_bind fun t he => ?_
    have hk : t.kind ≠ .stringLiteral := by
      intro hk
      simp [Token.isEof, hk] at he
    rw [if_neg hk]
    exact consumes_unexpected _ _
  · exact .bind_right _ fun _ => .bind_left (identifier_consumes _) _
  · exact .bind_right _ fun _ => .bind_left (identifier_consumes _) _
  · exact consumes_fail _
  · exact .bind_left h _
  · exact consumes_unexpected _ _

def statementList (levels : Nat) (body : Parser σ (List Statement)) : Parser σ (List Statement) :=
  manyUntil (fun t => t.isEof || t.isSeparator "\x7d") (statement (expression levels) body)
    (statement_consumes (expression_consumes levels) body)

def statements : Nat → Parser σ (List Statement)
  | 0 => statementList 0 tooDeep
  | levels + 1 => statementList (levels + 1) (statements levels)

def program : Parser σ Program := do
  let statements ← statements maxNesting
  let t ← peek
  if t.isEof then return ⟨statements⟩
  unexpected .statement t

end FlatScript.Parser
