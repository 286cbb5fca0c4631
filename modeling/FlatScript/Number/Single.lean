import FlatScript.Number.Shortest
import FlatScript.Number.Layout
import FlatScript.Number.Reading

namespace FlatScript

def DecimalLayout.plain : DecimalLayout := ⟨fun _ => true, false, false⟩

/-- What an outline shows: always a point or an exponent, the latter from `1e16` up and below
`1e-4`. -/
def DecimalLayout.outline : DecimalLayout := ⟨fun e => -4 ≤ e && e ≤ 15, true, false⟩

/-- What a JSON document holds: always a point or an exponent, the latter with its sign, from
`1e+16` up and below `1e-5`. -/
def DecimalLayout.json : DecimalLayout := ⟨fun e => -5 ≤ e && e ≤ 15, true, true⟩

namespace Single

open BinaryFormat (binary32 binary64)

def magnitude (x : Float32) : Nat := x.toBits.toNat % Nat.pow 2 31

def isNegative (x : Float32) : Bool := Nat.pow 2 31 ≤ x.toBits.toNat

def ofMagnitude (negative : Bool) (i : Nat) : Float32 :=
  .ofBits (.ofNat (if negative then Nat.pow 2 31 + i else i))

def ofDecimal (d : Decimal) : Float32 := ofMagnitude false (binary32.ofDecimal d)

def writeWith (finite : Nat → List Char) (x : Float32) : String :=
  let i := magnitude x
  if binary32.infinity < i then "NaN"
  else
    let sign := if isNegative x then ['-'] else []
    .ofList (sign ++ if i = binary32.infinity then ['i', 'n', 'f'] else finite i)

/-- The shortest decimal that reads back, the greater one of two equally near. -/
def write (layout : DecimalLayout) (x : Float32) : String :=
  writeWith (fun i => (binary32.shortest .up i).write layout) x

def writeFixed (x : Float32) : String :=
  writeWith (fun i => Decimal.writeFixed 6 (binary32.units i) (Nat.pow 2 binary32.scale)) x

def writeJson? (x : Float32) : Option String :=
  if binary32.infinity ≤ magnitude x then none
  else
    let widen (i : Nat) := binary64.nearest (binary32.units i) (Nat.pow 2 binary32.scale)
    some <| writeWith (fun i => (binary64.shortest .even (widen i)).write .json) x

def read? (text : String) : Option Float32 :=
  let unsigned? (negative : Bool) (cs : List Char) : Option Float32 :=
    let name := String.ofList (cs.map Char.toLower)
    if name = "inf" ∨ name = "infinity" then some (ofMagnitude negative binary32.infinity)
    else if name = "nan" then some (ofMagnitude negative (binary32.infinity + Nat.pow 2 22))
    else (Decimal.readScientific? cs).map fun d => ofMagnitude negative (binary32.ofDecimal d)
  match text.toList with
  | '-' :: cs => unsigned? true cs
  | '+' :: cs => unsigned? false cs
  | cs => unsigned? false cs

end Single

/-- A whole number with six places: it is first rounded to double precision. -/
def writeFixedInt (n : Int64) : String :=
  let i := BinaryFormat.binary64.nearest n.toInt.natAbs 1
  let sign := if n < 0 then ['-'] else []
  .ofList (sign ++ Decimal.writeFixed 6 (BinaryFormat.binary64.units i)
    (Nat.pow 2 BinaryFormat.binary64.scale))

end FlatScript
