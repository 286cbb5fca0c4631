import FlatScript.Number.Binary
import FlatScript.Shell.Number

namespace FlatScript.Shell

inductive Magnitude
  | finite (units : Nat)
  | infinite
  | notANumber
deriving DecidableEq, Repr

structure Real where
  isNegative : Bool := false
  magnitude : Magnitude := .finite 0
deriving DecidableEq, Repr

/-- What reading a real number comes to: the number, the text behind it, and whether it is too
large or too small to be told apart from others. -/
structure RealReading where
  real : Real
  rest : Octets
  outOfRange : Bool := false

namespace Real

def format : BinaryFormat := .binary64

def one : Nat := Nat.pow 2 format.scale

/-- The integer digits and the digits behind the point in front of a text, and what follows. -/
def splitPlaces (base : Nat) (text : Octets) : Octets × Octets × Octets :=
  let whole := text.takeWhile (isDigit base)
  match text.drop whole.length with
  | '.' :: rest =>
    let fraction := rest.takeWhile (isDigit base)
    (whole, fraction, rest.drop fraction.length)
  | rest => (whole, [], rest)

/-- The exponent behind one of the letters `marks`, if there is one, and what follows. No exponent
beyond 20000 makes a difference to a number of few digits. -/
def splitExponent (marks : List Char) (text : Octets) : Int × Octets :=
  match text with
  | c :: rest =>
    let (negative, digits) := splitSign rest
    if marks.contains c && digits.head?.any Char.isDigit then
      let (n, rest) := splitDigits 10 digits
      (if negative then -(min n 20000 : Nat) else (min n 20000 : Nat), rest)
    else (0, text)
  | [] => (0, [])

/-- The magnitude nearest to `num / den`, and whether it is out of range: infinite, or rounded and
so small that it has fewer digits than others. -/
def nearest (num den : Nat) : Magnitude × Bool :=
  let i := format.nearest num den
  if i = format.infinity then (.infinite, true)
  else
    let units := format.units i
    (.finite units, units * den != num * one && i < format.step)

/-- Reads digits of a base: `scale` is the power of the base that one step of the exponent stands
for. -/
def readDigits? (base step : Nat) (marks : List Char) (text : Octets) :
    Option (Magnitude × Bool × Octets) :=
  let (whole, fraction, rest) := splitPlaces base text
  if whole.isEmpty && fraction.isEmpty then none
  else
    let significand := (splitDigits base (whole ++ fraction)).1
    let (exponent, rest) := splitExponent marks rest
    let num := significand * Nat.pow step exponent.toNat
    let den := Nat.pow base fraction.length * Nat.pow step (-exponent).toNat
    let (magnitude, outOfRange) := nearest num den
    some (magnitude, outOfRange, rest)

def behindWord? (word : String) (text : Octets) : Option Octets :=
  if (text.take word.length).map Char.toLower = word.toList then some (text.drop word.length)
  else none

def readMagnitude? (text : Octets) : Option (Magnitude × Bool × Octets) :=
  match behindWord? "infinity" text, behindWord? "inf" text, behindWord? "nan" text with
  | some rest, _, _ => some (.infinite, false, rest)
  | _, some rest, _ => some (.infinite, false, rest)
  | _, _, some rest =>
    match rest with
    | '(' :: inside =>
      let name := inside.takeWhile isNamePart
      match inside.drop name.length with
      | ')' :: rest => some (.notANumber, false, rest)
      | _ => some (.notANumber, false, rest)
    | rest => some (.notANumber, false, rest)
  | none, none, none =>
    match behindWord? "0x" text with
    | some digits =>
      match readDigits? 16 2 ['p', 'P'] digits with
      | some reading => some reading
      | none => some (.finite 0, false, text.drop 1)
    | none => readDigits? 10 10 ['e', 'E'] text

def read? (text : Octets) : Option RealReading :=
  let (isNegative, digits) := splitSign (text.dropWhile isSpace)
  (readMagnitude? digits).map fun (magnitude, outOfRange, rest) =>
    { real := { isNegative, magnitude }, rest, outOfRange }

def zeros (n : Nat) : Octets := List.replicate n '0'

def padDigits (n : Nat) (digits : Octets) : Octets := zeros (n - digits.length) ++ digits

/-- Digits with the last `places` of them behind a point; `keepPoint` asks for the point even if
nothing is behind it. -/
def withPoint (keepPoint : Bool) (places : Nat) (digits : Octets) : Octets :=
  let digits := padDigits (places + 1) digits
  let whole := digits.take (digits.length - places)
  if places = 0 ∧ !keepPoint then whole else whole ++ '.' :: digits.drop whole.length

def writeFixed (keepPoint : Bool) (places units : Nat) : Octets :=
  withPoint keepPoint places (roundDiv (units * Nat.pow 10 places) one).repr.toList

def decimalExponent (units : Nat) : Int :=
  if units = 0 then 0
  else if one ≤ units then ((units / one).repr.length : Int) - 1
  else 0 - (((one + units - 1) / units - 1).repr.length : Int)

/-- The digits of a number rounded to `places` behind the first one, and the power of ten that the
first one counts. -/
def scientific (places units : Nat) : Octets × Int :=
  let exponent := decimalExponent units
  let shift : Int := places - exponent
  let digits := roundDiv (units * Nat.pow 10 shift.toNat) (one * Nat.pow 10 (-shift).toNat)
  if digits = Nat.pow 10 (places + 1) then ((digits / 10).repr.toList, exponent + 1)
  else (padDigits (places + 1) digits.repr.toList, exponent)

def signed (n : Int) : Octets := if n < 0 then decimal n else '+' :: decimal n

def writeExponent (exponent : Int) : Octets :=
  (if exponent < 0 then '-' else '+') :: padDigits 2 exponent.natAbs.repr.toList

def writeScientific (keepPoint : Bool) (places units : Nat) : Octets :=
  let (digits, exponent) := scientific places units
  withPoint keepPoint places digits ++ 'e' :: writeExponent exponent

def writeGeneral (keepAll : Bool) (count units : Nat) : Octets :=
  let count := max count 1
  let (digits, exponent) := scientific (count - 1) units
  let strip (text : Octets) : Octets :=
    if keepAll || !text.contains '.' then text
    else dropTrailing (· == '.') (dropTrailing (· == '0') text)
  if -4 ≤ exponent ∧ exponent < count then
    strip (writeFixed keepAll ((count : Int) - 1 - exponent).toNat units)
  else strip (withPoint keepAll (count - 1) digits) ++ 'e' :: writeExponent exponent

/-- As `%a` writes it, behind `0x`: one digit, the point, and thirteen digits or as many as
`places?` says. -/
def writeHexadecimal (keepPoint : Bool) (places? : Option Nat) (units : Nat) : Octets :=
  let least := Nat.pow 2 (format.precision - 1)
  let shift := if units < least then 0 else units.log2 - (format.precision - 1)
  let exponent : Int :=
    if units = 0 then 0 else shift + (format.precision - 1 : Nat) - format.scale
  let significand := units / Nat.pow 2 shift
  let digits (n : Nat) : Octets := Nat.toDigits 16 n
  let text :=
    match places? with
    | none =>
      let fraction := dropTrailing (· == '0') (padDigits 13 (digits (significand % least)))
      withPoint keepPoint fraction.length (digits (significand / least) ++ fraction)
    | some places =>
      if 13 ≤ places then
        withPoint keepPoint places (padDigits 14 (digits significand) ++ zeros (places - 13))
      else
        withPoint keepPoint places
          (padDigits (places + 1) (digits (roundDiv significand (Nat.pow 16 (13 - places)))))
  text ++ 'p' :: signed exponent

end Real

end FlatScript.Shell
