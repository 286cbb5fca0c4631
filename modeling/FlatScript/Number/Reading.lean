import FlatScript.Number.Binary

namespace FlatScript

def ofDigits (ds : List Char) : Nat := ds.foldl (fun n d => 10 * n + (d.toNat - '0'.toNat)) 0

def readNat? (cs : List Char) : Option Nat :=
  if cs ≠ [] ∧ cs.all Char.isDigit then some (ofDigits cs) else none

def readInt64? (cs : List Char) : Option Int64 :=
  match readNat? cs with
  | some n => if n < Nat.pow 2 63 then some (.ofNat n) else none
  | none => none

namespace Decimal

def read? (cs : List Char) : Option Decimal :=
  let whole := cs.takeWhile (· != '.')
  let fraction := (cs.dropWhile (· != '.')).drop 1
  if whole ++ fraction ≠ [] ∧ (whole ++ fraction).all Char.isDigit then
    some ⟨ofDigits (whole ++ fraction), -fraction.length⟩
  else none

/-- No magnitude but zero and the infinite ones has an exponent beyond this. -/
def exponentLimit : Nat := 100000

def readExponent? (cs : List Char) : Option Int :=
  match cs with
  | '-' :: cs => (readNat? cs).map fun n => -(min n exponentLimit : Nat)
  | '+' :: cs => (readNat? cs).map fun n => (min n exponentLimit : Nat)
  | cs => (readNat? cs).map fun n => (min n exponentLimit : Nat)

def readScientific? (cs : List Char) : Option Decimal := do
  let isMark (c : Char) := c == 'e' || c == 'E'
  let d ← read? (cs.takeWhile (!isMark ·))
  match cs.dropWhile (!isMark ·) with
  | [] => return d
  | _ :: cs => return { d with exponent := d.exponent + (← readExponent? cs) }

end Decimal

end FlatScript
