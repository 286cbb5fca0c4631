import FlatScript.Shell.Octets

namespace FlatScript.Shell

def digit? (base : Nat) (c : Char) : Option Nat :=
  let n :=
    if c.isDigit then c.toNat - '0'.toNat
    else if 'a' ≤ c ∧ c ≤ 'f' then c.toNat - 'a'.toNat + 10
    else if 'A' ≤ c ∧ c ≤ 'F' then c.toNat - 'A'.toNat + 10
    else base
  if n < base then some n else none

def isDigit (base : Nat) (c : Char) : Bool := (digit? base c).isSome

def splitDigits (base : Nat) (text : Octets) : Nat × Octets :=
  ((text.takeWhile (isDigit base)).foldl (fun n c => base * n + (digit? base c).getD 0) 0,
    text.dropWhile (isDigit base))

/-- The number in front of a text and the text behind it, if the text begins with a number. -/
def splitNatural? (text : Octets) : Option (Nat × Octets) :=
  let based (base : Nat) (digits : Octets) : Nat × Octets :=
    if digits.head?.any (isDigit base) then splitDigits base digits else (0, text.drop 1)
  match text with
  | '0' :: 'x' :: digits | '0' :: 'X' :: digits => some (based 16 digits)
  | '0' :: 'b' :: digits | '0' :: 'B' :: digits => some (based 2 digits)
  | '0' :: _ => some (splitDigits 8 text)
  | c :: _ => if c.isDigit then some (splitDigits 10 text) else none
  | [] => none

def splitSign : Octets → Bool × Octets
  | '-' :: text => (true, text)
  | '+' :: text => (false, text)
  | text => (false, text)

/-- The number with or without a sign in front of a text, blanks before it not counted. -/
def splitInteger? (text : Octets) : Option (Int × Octets) :=
  let (negative, digits) := splitSign (text.dropWhile isSpace)
  (splitNatural? digits).map fun (n, rest) => (if negative then -(n : Int) else n, rest)

def splitDecimal? (text : Octets) : Option (Int × Octets) :=
  let (negative, digits) := splitSign (text.dropWhile isSpace)
  if digits.head?.any Char.isDigit then
    let (n, rest) := splitDigits 10 digits
    some (if negative then -(n : Int) else n, rest)
  else none

def leastInteger : Int := -Int.pow 2 63

def mostInteger : Int := Int.pow 2 63 - 1

def fits (n : Int) : Bool := leastInteger ≤ n && n ≤ mostInteger

def clamp (n : Int) : Int := max leastInteger (min mostInteger n)

def wrap (n : Int) : Int := n.bmod (Nat.pow 2 64)

def integer? (text : Octets) : Option Int :=
  match splitDecimal? text with
  | some (n, rest) => if fits n && rest.all isSpace then some n else none
  | none => none

def count? (text : Octets) : Option Nat :=
  match integer? text with
  | some n => if 0 ≤ n ∧ n < Int.pow 2 31 then some n.toNat else none
  | none => none

end FlatScript.Shell
