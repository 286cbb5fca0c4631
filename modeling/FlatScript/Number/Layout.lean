import FlatScript.Number.Binary

namespace FlatScript

structure DecimalLayout where
  /-- Whether a number whose leading digit counts powers of ten with this exponent is written
  without one. -/
  positional : Int → Bool
  wholePlace : Bool
  exponentSign : Bool

namespace Decimal

def digits (n : Nat) : List Char := if n = 0 then [] else n.repr.toList

def dropTrailingZeros (ds : List Char) : List Char := (ds.reverse.dropWhile (· == '0')).reverse

def zeros (n : Nat) : List Char := List.replicate n '0'

def positional (wholePlace : Bool) (ds : List Char) (place : Int) : List Char :=
  if place ≤ 0 then '0' :: '.' :: zeros (-place).toNat ++ ds
  else
    let n := place.toNat
    if n < ds.length then ds.take n ++ '.' :: ds.drop n
    else ds ++ zeros (n - ds.length) ++ if wholePlace then ['.', '0'] else []

def scientific (exponentSign : Bool) (ds : List Char) (exponent : Int) : List Char :=
  let mantissa :=
    match ds with
    | [] => []
    | [d] => [d]
    | d :: ds => d :: '.' :: ds
  let sign := if exponent < 0 then ['-'] else if exponentSign then ['+'] else []
  mantissa ++ 'e' :: sign ++ exponent.natAbs.repr.toList

def write (layout : DecimalLayout) (d : Decimal) : List Char :=
  match digits d.significand with
  | [] => if layout.wholePlace then ['0', '.', '0'] else ['0']
  | ds =>
    let place := ds.length + d.exponent
    let ds := dropTrailingZeros ds
    if layout.positional (place - 1) then positional layout.wholePlace ds place
    else scientific layout.exponentSign ds (place - 1)

def writeFixed (places num den : Nat) : List Char :=
  let scaled := roundDiv (num * Nat.pow 10 places) den
  let fraction := (scaled % Nat.pow 10 places).repr.toList
  (scaled / Nat.pow 10 places).repr.toList ++ '.' :: zeros (places - fraction.length) ++ fraction

end Decimal

end FlatScript
