import FlatScript.Number.Binary

namespace FlatScript.BinaryFormat

inductive Tie
  | up
  | even
deriving DecidableEq, Repr

/-- The place of the leading digit of `num / den`, which is not zero: 1 for `1 ≤ num / den < 10`. -/
def leadingPlace (f : BinaryFormat) (num den : Nat) : Int :=
  ((num * Nat.pow 10 f.scale / den).repr.length : Int) - f.scale

def readsBack? (f : BinaryFormat) (i : Nat) (first second : Decimal) : Option Decimal :=
  if f.ofDecimal first = i then some first
  else if f.ofDecimal second = i then some second
  else none

def candidate? (f : BinaryFormat) (tie : Tie) (i : Nat) (exponent : Int) : Option Decimal :=
  let num := f.units i * Nat.pow 10 (-exponent).toNat
  let den := Nat.pow 2 f.scale * Nat.pow 10 exponent.toNat
  let below := num / den
  let r := num % den
  if 2 * r < den ∨ (2 * r = den ∧ tie = .even ∧ below % 2 = 0) then
    f.readsBack? i ⟨below, exponent⟩ ⟨below + 1, exponent⟩
  else f.readsBack? i ⟨below + 1, exponent⟩ ⟨below, exponent⟩

/-- The shortest decimal that reads back as the magnitude of number `i`. As many digits as the
significand has bits always suffice. -/
def shortest (f : BinaryFormat) (tie : Tie) (i : Nat) : Decimal :=
  let place := f.leadingPlace (f.units i) (Nat.pow 2 f.scale)
  ((List.range f.precision).findSome? fun (n : Nat) => f.candidate? tie i (place - 1 - n)).getD
    (f.toDecimal i)

theorem ofDecimal_readsBack {f : BinaryFormat} {i : Nat} {first second d : Decimal}
    (h : f.readsBack? i first second = some d) : f.ofDecimal d = i := by
  unfold readsBack? at h
  split at h
  next hf => exact Option.some.inj h ▸ hf
  split at h
  next hs => exact Option.some.inj h ▸ hs
  next => simp at h

theorem ofDecimal_candidate {f : BinaryFormat} {tie : Tie} {i : Nat} {exponent : Int} {d : Decimal}
    (h : f.candidate? tie i exponent = some d) : f.ofDecimal d = i := by
  simp only [candidate?] at h
  split at h
  · exact ofDecimal_readsBack h
  · exact ofDecimal_readsBack h

end FlatScript.BinaryFormat
