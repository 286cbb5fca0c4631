import FlatScript.Proofs.CutOff

namespace FlatScript.Parser

/-- The procedures of a parser, with the number of levels that may still be opened. `binary` is for
an operand with the operators behind it that bind tighter than `min`, `operators` for these
operators behind `left`, and `arguments` for what is behind the opening parenthesis or a comma. -/
inductive Procedure
  | program
  | statements (levels : Nat)
  | statement (levels : Nat)
  | expression (levels : Nat)
  | binary (levels min : Nat)
  | operators (levels min : Nat) (left : Expr)
  | operand (levels : Nat)
  | arguments (levels : Nat)

abbrev Procedure.Result : Procedure → Type
  | .program => Program
  | .statements _ => List Statement
  | .statement _ => Statement
  | .expression _ | .binary _ _ | .operators _ _ _ | .operand _ => Expr
  | .arguments _ => List Expr

/-- What is done, up to the end: tokens are taken, and procedures are called. How it goes on behind
a call depends on its result and on the state that it leaves. -/
inductive Course (σ α : Type)
  | done (result : Except ParseError α) (s : ParserState σ)
  | take (t : Token) (rest : Course σ α)
  | call (c : Procedure) (s : ParserState σ)
      (goesOn : Except ParseError c.Result → ParserState σ → Course σ α)

def Course.bind {σ α β : Type} (f : α → ParserState σ → Course σ β) : Course σ α → Course σ β
  | .done (.ok a) s => f a s
  | .done (.error e) s => .done (.error e) s
  | .take t rest => .take t (rest.bind f)
  | .call c s goesOn => .call c s fun r s' => (goesOn r s').bind f

/-- What is done from each state. -/
def Plan (σ α : Type) : Type := ParserState σ → Course σ α

variable {σ : Type} [TokenSource σ] {α β : Type}

namespace Plan

instance : Monad (Plan σ) where
  pure a s := .done (.ok a) s
  bind p f s := (p s).bind f

def look (p : Parser σ α) : Plan σ α := fun s => .done (p.run s).1 (p.run s).2

def next : Plan σ Token := fun s =>
  match Parser.next.run s with
  | (.ok t, s') => .take t (.done (.ok t) s')
  | (.error e, s') => .done (.error e) s'

def call (c : Procedure) : Plan σ c.Result := fun s => .call c s .done

def accept? (pick : Token → Option α) : Plan σ (Option α) := do
  let t ← look peek
  if t.isEof then return none
  match pick t with
  | none => return none
  | some a => do
    let _ ← next
    return some a

def skip? (text : String) : Plan σ Bool := do
  let found ← accept? fun t => if t.isSeparator text then some () else none
  return found.isSome

def identifier (expected : Expectation) : Plan σ String := do
  let t ← next
  if t.kind = .identifier then return t.text
  look (unexpected expected t)

def separator (text : String) (expected : Expectation) : Plan σ Unit := do
  let t ← next
  if t.isSeparator text then return
  look (unexpected expected t)

section

variable (levels : Nat)

def arguments : Plan σ (List Expr) := do
  separator "(" .argumentsOpening
  if ← skip? ")" then return []
  call (.arguments levels)

def reference : Plan σ Expr := do
  let after ← look peek2
  let name ← identifier (if after.isSeparator "::" then .moduleName else .calledName)
  if after.isSeparator "::" then
    separator "::" .moduleSeparator
    let function ← identifier .externalName
    return .externalCall name function (← arguments levels)
  else
    let id ← look fresh
    if after.isSeparator "(" then return .call id name (← arguments levels)
    return .variable id name

def group : Plan σ Expr := do
  separator "(" .groupClosing
  let e ← call (.expression levels)
  separator ")" .groupClosing
  return e

def operand : Plan σ Expr := do
  let t ← look peek
  if t.kind = .identifier then reference levels
  else if t.isSeparator "(" then group levels
  else
    match ← accept? literal? with
    | some r => look (ofExcept r)
    | none => look (unexpected .expression t)

def importStatement : Plan σ Statement := do
  let _ ← next
  let t ← next
  if t.kind = .stringLiteral then
    if importExtension.toList.isSuffixOf t.text.toList then
      let _ ← skip? ";"
      return .importFile t.text
    else look (fail (.invalidImportPath t.text importExtension t.location))
  else look (unexpected .importPath t)

def body : Nat → Plan σ (List Statement)
  | 0 => look tooDeep
  | levels + 1 => call (.statements levels)

def functionStatement : Plan σ Statement := do
  let _ ← next
  let name ← identifier .functionName
  separator "(" .parametersOpening
  separator ")" .parametersClosing
  separator "\x7b" .bodyOpening
  let statements ← body levels
  separator "\x7d" .bodyClosing
  return .function name statements

def declaredType : Plan σ String := do
  if ← skip? "::" then identifier .typeName else pure defaultTypeName

def initialValue : Plan σ (Option Expr) := do
  let assigned ← accept? fun t => if t.isOperator "=" then some () else none
  if assigned.isSome then some <$> call (.expression levels) else pure none

def variableStatement : Plan σ Statement := do
  let _ ← next
  let name ← identifier .variableName
  let typeName ← declaredType
  let init ← initialValue levels
  let _ ← skip? ";"
  return .variable name typeName init

def expressionStatement : Plan σ Statement := do
  let e ← call (.expression levels)
  let _ ← skip? ";"
  return .expression e

def statement : Plan σ Statement := do
  let t ← look peek
  if t.kind = .keyword then
    if t.text = "import" then importStatement
    else if t.text = "fn" then functionStatement levels
    else if t.text = "let" then variableStatement levels
    else look (fail (.reservedKeyword t.text t.location))
  else if beginsExpression t then expressionStatement levels
  else look (unexpected .statement t)

end

end Plan

section

open Plan

/-- What each procedure does, by means of calls of others and, for the next round of a loop, of
itself. -/
def Procedure.plan : (c : Procedure) → Plan σ c.Result
  | .program => do
    let statements ← call (.statements maxNesting)
    let t ← look peek
    if t.isEof then return ⟨statements⟩
    look (unexpected .statement t)
  | .statements levels => do
    let t ← look peek
    if t.isEof || t.isSeparator "\x7d" then return []
    let s ← call (.statement levels)
    let ss ← call (.statements levels)
    return s :: ss
  | .statement levels => Plan.statement levels
  | .expression 0 => look tooDeep
  | .expression (levels + 1) => call (.binary levels 0)
  | .binary levels min => do
    let first ← call (.operand levels)
    call (.operators levels min first)
  | .operators levels min left => do
    match ← Plan.accept? (tighter? min) with
    | none => return left
    | some op => do
      let right ← call (.binary levels op.val.precedence)
      call (.operators levels min (.binary op left right))
  | .operand levels => Plan.operand levels
  | .arguments levels => do
    let e ← call (.expression levels)
    let t ← Plan.next
    if t.isSeparator ")" then return [e]
    if t.isSeparator "," then
      let es ← call (.arguments levels)
      return e :: es
    look (unexpected .argumentsGoingOn t)

end

structure Call (σ : Type) where
  procedure : Procedure
  state : ParserState σ

namespace Course

/-- The end is reached, and all calls on the way to it return. The tokens `ts` are those that are
taken, in the calls and between them. -/
inductive Returns : {α : Type} → Course σ α → List Token → Except ParseError α → ParserState σ →
    Prop
  | done {α : Type} (r : Except ParseError α) (s : ParserState σ) : Returns (.done r s) [] r s
  | take {α : Type} {t : Token} {rest : Course σ α} {ts : List Token} {r : Except ParseError α}
      {s : ParserState σ} (h : Returns rest ts r s) : Returns (.take t rest) (t :: ts) r s
  | call {α : Type} {c : Procedure} {s s' s'' : ParserState σ}
      {goesOn : Except ParseError c.Result → ParserState σ → Course σ α} {ts us : List Token}
      {r : Except ParseError c.Result} {r' : Except ParseError α}
      (hc : Returns (c.plan s) ts r s') (h : Returns (goesOn r s') us r' s'') :
      Returns (.call c s goesOn) (ts ++ us) r' s''

/-- The call `k` is made, behind others that have returned. -/
inductive Makes (k : Call σ) : {α : Type} → Course σ α → Prop
  | here {α : Type} (goesOn : Except ParseError k.procedure.Result → ParserState σ → Course σ α) :
      Makes k (.call k.procedure k.state goesOn)
  | take {α : Type} {t : Token} {rest : Course σ α} (h : Makes k rest) : Makes k (.take t rest)
  | behind {α : Type} {c : Procedure} {s s' : ParserState σ}
      {goesOn : Except ParseError c.Result → ParserState σ → Course σ α} {ts : List Token}
      {r : Except ParseError c.Result} (hc : Returns (c.plan s) ts r s')
      (h : Makes k (goesOn r s')) : Makes k (.call c s goesOn)

end Course

/-! ### The parsers of the procedures -/

section

variable (expression : Parser σ Expr)

def operators (min : Nat) (left : Expr) : Parser σ Expr := do
  let rest ← many (tighter? min) fun op => do return (op.val, ← chain expression op.val.precedence)
  return rest.foldl (fun left (op, right) => .binary op left right) left

def argumentsGoingOn : Parser σ (List Expr) := do
  let first ← expression
  let rest ← many (fun t => if t.isSeparator "," then some () else none) fun _ => expression
  separator ")" .argumentsGoingOn
  return first :: rest

end

def Procedure.parser : (c : Procedure) → Parser σ c.Result
  | .program => Parser.program
  | .statements levels => Parser.statements levels
  | .statement levels => Parser.statement (Parser.expression levels) (innerStatements levels)
  | .expression levels => Parser.expression levels
  | .binary levels min => chain (Parser.expression levels) min
  | .operators levels min left => Parser.operators (Parser.expression levels) min left
  | .operand levels => Parser.operand (Parser.expression levels)
  | .arguments levels => argumentsGoingOn (Parser.expression levels)

section

variable (expression : Parser σ Expr)

theorem arguments_eq :
    arguments expression = (do
      separator "(" .argumentsOpening
      if ← skip? ")" then return []
      argumentsGoingOn expression) := rfl

theorem chain_eq (min : Nat) :
    chain expression min = operand expression >>= operators expression min := by
  rw [chain]
  rfl

theorem pure_bind (a : α) (f : α → Parser σ β) : pure a >>= f = f a := rfl

theorem operators_eq (min : Nat) (left : Expr) :
    operators expression min left = (do
      match ← accept? (tighter? min) with
      | none => return left
      | some op => do
        let right ← chain expression op.val.precedence
        operators expression min (.binary op left right)) := by
  rw [operators, many_eq, bind_assoc]
  refine congrArg (accept? (tighter? min) >>= ·) (funext fun found => ?_)
  cases found with
  | none => rfl
  | some op =>
    simp only [bind_assoc, pure_bind]
    rfl

theorem peek_bind_congr {f g : Token → Parser σ α}
    (h : ∀ t s s', peek.run s = (.ok t, s') → (f t).run s' = (g t).run s') :
    peek >>= f = peek >>= g := by
  refine eq_of_run fun s => ?_
  rw [run_bind, run_bind]
  rcases hp : peek.run s with ⟨e | t, s'⟩
  · rfl
  · exact h t s s' hp

theorem run_next_bind_of_peek {t : Token} {s s' : ParserState σ} (h : peek.run s = (.ok t, s'))
    (f : Token → Parser σ α) : (next >>= f).run s' = (next >>= fun _ => f t).run s' := by
  rw [run_bind, run_bind]
  rcases hn : next.run s' with ⟨e | u, s''⟩
  · rfl
  · rw [next_of_peek h hn]

theorem next_bind_eq (f : Token → Parser σ α) :
    next >>= f = peek >>= fun t => next >>= fun _ => f t := by
  have hn : (next : Parser σ Token) = peek >>= fun _ => next := by
    refine eq_of_run fun s => ?_
    obtain ⟨⟨source, _ | ⟨t, ts⟩⟩, nextId⟩ := s
    · simp only [run_bind, peek, next, ofTokens, Lookahead.peek, Lookahead.next, Lookahead.pull]
      rcases TokenSource.scan source with ⟨e | t, source'⟩
      · rfl
      · rfl
    · rfl
  calc next >>= f = (peek >>= fun _ => next) >>= f := by rw [← hn]
    _ = peek >>= fun _ => next >>= f := bind_assoc _ _ _
    _ = peek >>= fun t => next >>= fun _ => f t :=
      peek_bind_congr fun t s s' h => run_next_bind_of_peek h f

theorem accept_bind_eq {γ : Type} {pick : Token → Option γ}
    (hpick : ∀ t, t.isEof = true → pick t = none) (f : Option γ → Parser σ α) :
    accept? pick >>= f = (do
      let t ← peek
      match pick t with
      | none => f none
      | some a => do
        let _ ← next
        f (some a)) := by
  rw [accept?, bind_assoc]
  refine congrArg (peek >>= ·) (funext fun t => ?_)
  cases he : t.isEof with
  | true =>
    rw [hpick t he]
    rfl
  | false =>
    cases pick t with
    | none => rfl
    | some a => exact bind_assoc next _ f

theorem argumentsGoingOn_eq :
    argumentsGoingOn expression = (do
      let e ← expression
      let t ← next
      if t.isSeparator ")" then return [e]
      if t.isSeparator "," then
        let es ← argumentsGoingOn expression
        return e :: es
      unexpected .argumentsGoingOn t) := by
  refine congrArg (expression >>= ·) (funext fun e => ?_)
  have hpick : ∀ t : Token, t.isEof = true →
      (if t.isSeparator "," then some () else none) = none := by
    intro t he
    have hk : t.kind = .eof := eq_of_beq he
    simp [Token.isSeparator, hk]
  rw [next_bind_eq, many_eq, bind_assoc, accept_bind_eq hpick]
  refine peek_bind_congr fun t s s' h => ?_
  by_cases hc : t.isSeparator "," = true
  · have hn : ¬ t.isSeparator ")" = true := by
      rw [isSeparator_iff] at hc ⊢
      simp [hc, Lexeme.separator]
    simp only [if_pos hc, if_neg hn, argumentsGoingOn, bind_assoc, pure_bind]
  · simp only [if_neg hc, pure_bind]
    rw [separator, bind_assoc, run_next_bind_of_peek h]
    simp only [ite_bind]
    rfl

end

theorem statements_eq_round (levels : Nat) :
    (statements levels : Parser σ (List Statement)) = (do
      let t ← peek
      if t.isEof || t.isSeparator "\x7d" then return []
      let s ← statement (expression levels) (innerStatements levels)
      let ss ← statements levels
      return s :: ss) := by
  cases levels with
  | zero => exact manyUntil_eq _ _ _
  | succ levels => exact manyUntil_eq _ _ _

end FlatScript.Parser
