import FlatScript.Shell.State

namespace FlatScript.Shell

inductive ArithmeticToken
  | number (n : Int)
  | name (name : Octets)
  | symbol (text : String)
  | other
deriving DecidableEq, Repr

inductive ArithmeticError
  | noOperand
  | noClosing
  | noAlternative
  | leftOver
  | divisionByZero
deriving DecidableEq, Repr

def ArithmeticError.message : ArithmeticError → String
  | .noOperand => "expecting primary"
  | .noClosing => "expecting ')'"
  | .noAlternative => "expecting ':'"
  | .leftOver => "expecting EOF"
  | .divisionByZero => "division by zero"

inductive Sign
  | plus
  | minus
  | not
  | complement
deriving DecidableEq, Repr

def truth (b : Bool) : Int := if b then 1 else 0

def Sign.apply (sign : Sign) (n : Int) : Int :=
  match sign with
  | .plus => n
  | .minus => wrap (-n)
  | .not => truth (n == 0)
  | .complement => -n - 1

inductive Expression
  | number (n : Int)
  | parameter (name : Octets)
  | signed (sign : Sign) (operand : Expression)
  | binary (symbol : String) (left right : Expression)
  | both (left right : Expression)
  | either (left right : Expression)
  | choice (condition yes no : Expression)
  /-- With an operator, what is assigned is its result for the old value and the new one. -/
  | assign (name : Octets) (symbol? : Option String) (value : Expression)
deriving Repr

namespace Expression

def symbols : List String :=
  ["<<=", ">>=", "<<", ">>", "<=", ">=", "==", "!=", "&&", "||", "+=", "-=", "*=", "/=", "%=", "&=",
    "^=", "|=", "+", "-", "*", "/", "%", "&", "^", "|", "<", ">", "=", "!", "~", "?", ":", "(",
    ")"]

def strength? (symbol : String) : Option Nat :=
  match symbol with
  | "|" => some 1
  | "^" => some 2
  | "&" => some 3
  | "==" | "!=" => some 4
  | "<" | "<=" | ">" | ">=" => some 5
  | "<<" | ">>" => some 6
  | "+" | "-" => some 7
  | "*" | "/" | "%" => some 8
  | _ => none

def assignment? (symbol : String) : Option (Option String) :=
  match symbol with
  | "=" => some none
  | "<<=" => some (some "<<")
  | ">>=" => some (some ">>")
  | "+=" => some (some "+")
  | "-=" => some (some "-")
  | "*=" => some (some "*")
  | "/=" => some (some "/")
  | "%=" => some (some "%")
  | "&=" => some (some "&")
  | "^=" => some (some "^")
  | "|=" => some (some "|")
  | _ => none

def tokens : Nat → Octets → List ArithmeticToken
  | 0, _ => [.other]
  | fuel + 1, text =>
    match text.dropWhile isBlank with
    | [] => []
    | c :: text =>
      match splitNatural? (c :: text) with
      | some (n, rest) => .number (clamp n) :: tokens fuel rest
      | none =>
        if isNameStart c then
          let name := (c :: text).takeWhile isNamePart
          .name name :: tokens fuel ((c :: text).dropWhile isNamePart)
        else
          match symbols.find? fun symbol => symbol.toList.isPrefixOf (c :: text) with
          | some symbol => .symbol symbol :: tokens fuel ((c :: text).drop symbol.length)
          | none => [.other]

abbrev Reader := List ArithmeticToken → Except ArithmeticError (Expression × List ArithmeticToken)

mutual

def readOperand : Nat → Reader
  | 0, _ => .error .noOperand
  | fuel + 1, ts =>
    let signed (sign : Sign) (ts : List ArithmeticToken) :=
      (readOperand fuel ts).map fun (e, ts) => (signed sign e, ts)
    match ts with
    | .number n :: ts => .ok (.number n, ts)
    | .name name :: ts => .ok (.parameter name, ts)
    | .symbol "+" :: ts => signed .plus ts
    | .symbol "-" :: ts => signed .minus ts
    | .symbol "!" :: ts => signed .not ts
    | .symbol "~" :: ts => signed .complement ts
    | .symbol "(" :: ts => do
      match ← readAssignment fuel ts with
      | (e, .symbol ")" :: ts) => return (e, ts)
      | _ => throw .noClosing
    | _ => .error .noOperand
termination_by structural fuel => fuel

/-- Reads operators that bind tighter than `least`, and their operands behind the first one. -/
def readBinary : Nat → Nat → Expression → Reader
  | 0, _, _, _ => .error .noOperand
  | fuel + 1, least, left, ts =>
    match ts with
    | .symbol symbol :: rest =>
      match strength? symbol with
      | none => .ok (left, ts)
      | some strength =>
        if strength ≤ least then .ok (left, ts)
        else do
          let (right, rest) ← readOperand fuel rest
          let (right, rest) ← readBinary fuel strength right rest
          readBinary fuel least (.binary symbol left right) rest
    | ts => .ok (left, ts)
termination_by structural fuel => fuel

def readBoth : Nat → Reader
  | 0, _ => .error .noOperand
  | fuel + 1, ts => do
    let (first, ts) ← readOperand fuel ts
    let (left, ts) ← readBinary fuel 0 first ts
    match ts with
    | .symbol "&&" :: ts =>
      let (right, ts) ← readBoth fuel ts
      return (.both left right, ts)
    | ts => return (left, ts)
termination_by structural fuel => fuel

def readEither : Nat → Reader
  | 0, _ => .error .noOperand
  | fuel + 1, ts => do
    let (left, ts) ← readBoth fuel ts
    match ts with
    | .symbol "||" :: ts =>
      let (right, ts) ← readEither fuel ts
      return (.either left right, ts)
    | ts => return (left, ts)
termination_by structural fuel => fuel

def readChoice : Nat → Reader
  | 0, _ => .error .noOperand
  | fuel + 1, ts => do
    let (condition, ts) ← readEither fuel ts
    match ts with
    | .symbol "?" :: ts =>
      match ← readAssignment fuel ts with
      | (yes, .symbol ":" :: ts) =>
        let (no, ts) ← readChoice fuel ts
        return (.choice condition yes no, ts)
      | _ => throw .noAlternative
    | ts => return (condition, ts)
termination_by structural fuel => fuel

def readAssignment : Nat → Reader
  | 0, _ => .error .noOperand
  | fuel + 1, ts =>
    match ts with
    | .name name :: .symbol symbol :: rest =>
      match assignment? symbol with
      | some operator? =>
        (readAssignment fuel rest).map fun (value, ts) => (.assign name operator? value, ts)
      | none => readChoice fuel ts
    | ts => readChoice fuel ts
termination_by structural fuel => fuel

end

def ofText (text : Octets) : Except ArithmeticError Expression := do
  let ts := tokens (text.length + 1) text
  match ← readAssignment (8 * ts.length + 8) ts with
  | (e, []) => return e
  | _ => throw .leftOver

def result? (symbol : String) (l r : Int) : Option Int :=
  match symbol with
  | "==" => some (truth (l == r))
  | "!=" => some (truth (l != r))
  | "<=" => some (truth (l ≤ r))
  | ">=" => some (truth (l ≥ r))
  | "<" => some (truth (l < r))
  | ">" => some (truth (l > r))
  | "<<" => some (Int64.ofInt l <<< Int64.ofInt r).toInt
  | ">>" => some (Int64.ofInt l >>> Int64.ofInt r).toInt
  | "|" => some (Int64.ofInt l ||| Int64.ofInt r).toInt
  | "^" => some (Int64.ofInt l ^^^ Int64.ofInt r).toInt
  | "&" => some (Int64.ofInt l &&& Int64.ofInt r).toInt
  | "+" => some (wrap (l + r))
  | "-" => some (wrap (l - r))
  | "*" => some (wrap (l * r))
  | "/" => if r = 0 then none else some (wrap (l.tdiv r))
  | "%" => if r = 0 then none else some (l.tmod r)
  | _ => none

def numberOf (name : Octets) : Act Int := do
  let text := ((← get).value? name).getD []
  match splitInteger? text with
  | some (n, rest) =>
    if fits n && rest.all isSpace then return n
    fail ("Illegal number: " ++ .ofList text)
  | none =>
    if text.all isSpace then return 0
    fail ("Illegal number: " ++ .ofList text)

def failIn (text : Octets) (e : ArithmeticError) : Act α :=
  fail ("arithmetic expression: " ++ e.message ++ ": \"" ++ .ofList text ++ "\"")

section

-- The text of the whole expression.
variable (text : Octets)

def resultOrFail (symbol : String) (l r : Int) : Act Int :=
  match result? symbol l r with
  | some n => return n
  | none => failIn text .divisionByZero

def eval : Expression → Act Int
  | .number n => return n
  | .parameter name => numberOf name
  | .signed sign operand => return sign.apply (← eval operand)
  | .binary symbol left right => do
    let l ← eval left
    let r ← eval right
    resultOrFail text symbol l r
  | .both left right => do
    if (← eval left) = 0 then return 0
    return truth ((← eval right) != 0)
  | .either left right => do
    if (← eval left) ≠ 0 then return 1
    return truth ((← eval right) != 0)
  | .choice condition yes no => do
    if (← eval condition) ≠ 0 then eval yes else eval no
  | .assign name symbol? value => do
    let n ← eval value
    let n ←
      match symbol? with
      | some symbol => resultOrFail text symbol (← numberOf name) n
      | none => pure n
    setVariable name (decimal n)
    return n

end

end Expression

def evalArithmetic (text : Octets) : Act Int :=
  match Expression.ofText text with
  | .ok e => e.eval text
  | .error complaint => Expression.failIn text complaint

end FlatScript.Shell
