namespace FlatScript

/-- A decimal number that is not negative: `significand * 10 ^ exponent`. -/
structure Decimal where
  significand : Nat
  exponent : Int
deriving DecidableEq, Repr

namespace Decimal

def numerator (d : Decimal) : Nat := d.significand * Nat.pow 10 d.exponent.toNat

def denominator (d : Decimal) : Nat := Nat.pow 10 (-d.exponent).toNat

end Decimal

def roundDiv (num den : Nat) : Nat :=
  let q := num / den
  let r := num % den
  if 2 * r < den then q
  else if den < 2 * r then q + 1
  else q + q % 2

/-- The magnitudes of a format are numbered in order of their size, zero being number 0: the number
is the bit pattern without the sign. Significands have `precision` bits, and the smallest magnitude
but zero, the unit, is `2 ^ (-scale)`; that of number `infinity` is infinite. -/
structure BinaryFormat where
  precision : Nat
  scale : Nat
  infinity : Nat
deriving Repr

namespace BinaryFormat

def binary32 : BinaryFormat := ⟨24, 149, 255 * Nat.pow 2 23⟩

def binary64 : BinaryFormat := ⟨53, 1074, 2047 * Nat.pow 2 52⟩

def step (f : BinaryFormat) : Nat := Nat.pow 2 (f.precision - 1)

def units (f : BinaryFormat) (i : Nat) : Nat :=
  if i < f.step then i else (i % f.step + f.step) * Nat.pow 2 (i / f.step - 1)

/-- The number of the magnitude that is nearest to `num / den`, of two the one with the even
significand; what is too large becomes infinite. -/
def nearest (f : BinaryFormat) (num den : Nat) : Nat :=
  let num := num * Nat.pow 2 f.scale
  let shift := (num / den).log2 + 1 - f.precision
  min (shift * f.step + roundDiv num (den * Nat.pow 2 shift)) f.infinity

def ofDecimal (f : BinaryFormat) (d : Decimal) : Nat := f.nearest d.numerator d.denominator

def toDecimal (f : BinaryFormat) (i : Nat) : Decimal := ⟨f.units i * Nat.pow 5 f.scale, -f.scale⟩

end BinaryFormat

end FlatScript
