import FlatScript.Shell.Number

namespace FlatScript.Shell

structure FileView where
  exists? : Octets → Bool
  isDirectory : Octets → Bool
  size : Octets → Nat

inductive ConditionKind
  | unary
  | binary
  | other
deriving DecidableEq, Repr

def conditionKind? (text : Octets) : Option ConditionKind :=
  match String.ofList text with
  | "-r" | "-w" | "-x" | "-e" | "-f" | "-d" | "-c" | "-b" | "-p" | "-u" | "-g" | "-k" | "-s" | "-t"
  | "-z" | "-n" | "-h" | "-L" | "-O" | "-G" | "-S" => some .unary
  | "=" | "!=" | "<" | ">" | "-eq" | "-ne" | "-ge" | "-gt" | "-le" | "-lt" | "-nt" | "-ot"
  | "-ef" => some .binary
  | "!" | "-a" | "-o" | "(" | ")" => some .other
  | _ => none

def isBinaryOperator (text : Octets) : Bool := conditionKind? text == some .binary

namespace Condition

abbrev Check := Except String

/-- The operator that begins a text of arguments, as long as it does not have to be an operand. -/
def operator? : List Octets → Option (Octets × ConditionKind)
  | [] => none
  | text :: rest =>
    let isOperand :=
      match rest with
      | [] => true
      | [_] => false
      | next :: _ => isBinaryOperator next
    match conditionKind? text with
    | some .unary => if isOperand then none else some (text, .unary)
    | some kind => if text = ['('] ∧ rest.isEmpty then none else some (text, kind)
    | none => none

def isOperator (args : List Octets) (text : String) : Bool :=
  (operator? args).any fun (op, _) => op == text.toList

def number (text : Octets) : Check Int :=
  match integer? text with
  | some n => .ok n
  | none => .error ("Illegal number: " ++ .ofList text)

def unary (files : FileView) (op operand : Octets) : Check Bool :=
  match String.ofList op with
  | "-z" => return operand.isEmpty
  | "-n" => return !operand.isEmpty
  | "-t" => do
    let _ ← number operand
    return false
  | "-e" | "-r" | "-w" => return files.exists? operand
  | "-f" => return files.exists? operand && !files.isDirectory operand &&
      operand != "/dev/null".toList
  | "-d" | "-x" => return files.isDirectory operand
  | "-c" => return operand == "/dev/null".toList
  | "-s" => return files.isDirectory operand || files.size operand != 0
  | "-O" | "-G" => return files.exists? operand
  | _ => return false

def binary (left op right : Octets) : Check Bool := do
  let compare (p : Int → Int → Bool) : Check Bool := do
    let l ← number left
    let r ← number right
    return p l r
  match String.ofList op with
  | "=" => return left == right
  | "!=" => return left != right
  | "<" => return left < right
  | ">" => return right < left
  | "-eq" => compare (· == ·)
  | "-ne" => compare (· != ·)
  | "-lt" => compare (· < ·)
  | "-le" => compare (· ≤ ·)
  | "-gt" => compare (· > ·)
  | "-ge" => compare (· ≥ ·)
  | "-ef" => return left == right
  | _ => return false

section

variable (files : FileView)

mutual

def either : Nat → List Octets → Check (Bool × List Octets)
  | 0, _ => throw "too long"
  | fuel + 1, args => do
    let (first, rest) ← both fuel args
    if isOperator rest "-o" then
      let (second, rest) ← either fuel rest.tail
      return (first || second, rest)
    return (first, rest)
termination_by structural fuel => fuel

def both : Nat → List Octets → Check (Bool × List Octets)
  | 0, _ => throw "too long"
  | fuel + 1, args => do
    let (first, rest) ← negation fuel args
    if isOperator rest "-a" then
      let (second, rest) ← both fuel rest.tail
      return (first && second, rest)
    return (first, rest)
termination_by structural fuel => fuel

def negation : Nat → List Octets → Check (Bool × List Octets)
  | 0, _ => throw "too long"
  | fuel + 1, args => do
    if isOperator args "!" then
      if args.tail.isEmpty then return (true, [])
      let (verdict, rest) ← negation fuel args.tail
      return (!verdict, rest)
    primary fuel args
termination_by structural fuel => fuel

def primary : Nat → List Octets → Check (Bool × List Octets)
  | 0, _ => throw "too long"
  | fuel + 1, args => do
    match operator? args, args with
    | _, [] => return (false, [])
    | some (['('], _), _ :: args =>
      if isOperator args ")" then return (false, args.tail)
      let (verdict, rest) ← either fuel args
      if isOperator rest ")" then return (verdict, rest.tail)
      throw "closing paren expected"
    | some (op, .unary), _ :: operand :: rest => return (← unary files op operand, rest)
    | some (op, .unary), _ => throw (.ofList op ++ ": argument expected")
    | _, left :: op :: rest =>
      if (operator? (op :: rest)).any (·.2 == .binary) then
        match rest with
        | right :: rest => return (← binary left op right, rest)
        | [] => throw (.ofList op ++ ": argument expected")
      else return (!left.isEmpty, op :: rest)
    | _, [only] => return (!only.isEmpty, [])
termination_by structural fuel => fuel

end

def decideAll (args : List Octets) : Check Bool := do
  let (verdict, rest) ← either files (4 * args.length + 4) args
  if rest.isEmpty then return verdict
  throw (.ofList (args.getD (args.length - rest.length - 1) []) ++ ": unexpected operator")

/-- Decides a condition. With three or four arguments the middle one may be an operator whatever is
around it, parentheses may be around the others, and exclamation marks in front negate once. -/
def decide (args : List Octets) : Check Bool :=
  match args with
  | [] => return false
  | [left, op, right] =>
    if isBinaryOperator op then binary left op right
    else if left = ['('] ∧ right = [')'] then decideAll files [op]
    else if left = ['!'] then (!·) <$> decideAll files [op, right]
    else decideAll files args
  | [first, second, third, fourth] =>
    if first = ['('] ∧ fourth = [')'] then decideAll files [second, third]
    else if first ≠ ['!'] then decideAll files args
    else if isBinaryOperator third then (!·) <$> binary second third fourth
    else if second = ['('] ∧ fourth = [')'] then (!·) <$> decideAll files [third]
    else if second = ['!'] then (!·) <$> decideAll files [third, fourth]
    else (!·) <$> decideAll files [second, third, fourth]
  | args => decideAll files args

end

end Condition

end FlatScript.Shell
