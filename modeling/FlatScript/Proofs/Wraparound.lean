import Mathlib.Data.Int.Bitwise
import Mathlib.Data.Int.ModEq
import Mathlib.Data.Rat.Floor
import FlatScript.Arithmetic

namespace FlatScript

/-- The whole number that the integer `n` wraps around to. -/
structure Wraps (n : Int) (x : Int64) : Prop where
  lower : -2 ^ 63 ≤ x.toInt
  upper : x.toInt < 2 ^ 63
  modEq : x.toInt ≡ n [ZMOD 2 ^ 64]

theorem Wraps.unique {n : Int} {x y : Int64} (hx : Wraps n x) (hy : Wraps n y) : x = y := by
  have h : x.toInt % 2 ^ 64 = y.toInt % 2 ^ 64 := hx.modEq.trans hy.modEq.symm
  obtain ⟨hlx, hux, -⟩ := hx
  obtain ⟨hly, huy, -⟩ := hy
  refine Int64.toInt_inj.1 ?_
  omega

theorem modEq_of_toInt_eq_bmod {n : Int} {x : Int64} (h : x.toInt = n.bmod (2 ^ 64)) :
    x.toInt ≡ n [ZMOD 2 ^ 64] := by
  rw [h]
  exact Int.bmod_emod

theorem wraps_iff_of_toInt_eq_bmod {n : Int} {x : Int64} (h : x.toInt = n.bmod (2 ^ 64))
    (y : Int64) : Wraps n y ↔ y = x := by
  have hx : Wraps n x := ⟨x.le_toInt, x.toInt_lt, modEq_of_toInt_eq_bmod h⟩
  constructor
  · exact fun hy => hy.unique hx
  · rintro rfl
    exact hx

/-- The quotient `q` and the remainder `m` of a division, which are exact unless the quotient is too
large by one. -/
structure Division (l r q m : Int64) : Prop where
  modEq : l.toInt ≡ q.toInt * r.toInt + m.toInt [ZMOD 2 ^ 64]
  abs_lt : |m.toInt| < |r.toInt|
  sign : m.toInt = 0 ∨ m.toInt.sign = l.toInt.sign
  exact_of_fits : ¬ (l.toInt = -2 ^ 63 ∧ r.toInt = -1) → l.toInt = q.toInt * r.toInt + m.toInt
  of_overflow : l.toInt = -2 ^ 63 ∧ r.toInt = -1 → q.toInt = -2 ^ 63 ∧ m.toInt = 0

theorem toInt_div_of_fits {l r : Int64} (h : ¬ (l.toInt = -2 ^ 63 ∧ r.toInt = -1)) :
    (l / r).toInt = l.toInt.tdiv r.toInt := by
  by_cases hl : l = Int64.minValue
  · refine Int64.toInt_div_of_ne_right l r fun hr => h ⟨?_, ?_⟩
    · rw [hl]; rfl
    · rw [hr]; rfl
  · exact Int64.toInt_div_of_ne_left l r hl

theorem division_div_mod {l r : Int64} (h : r ≠ 0) : Division l r (l / r) (l % r) where
  modEq := by
    have hq : (l / r).toInt ≡ l.toInt.tdiv r.toInt [ZMOD 2 ^ 64] :=
      modEq_of_toInt_eq_bmod (Int64.toInt_div l r)
    have := (hq.mul_right r.toInt).add_right (l % r).toInt
    rw [Int64.toInt_mod, Int.mul_comm (l.toInt.tdiv r.toInt), Int.mul_tdiv_add_tmod] at this
    rw [Int64.toInt_mod]
    exact this.symm
  abs_lt := by
    have hr : r.toInt ≠ 0 := fun hr => h (Int64.toInt_inj.1 hr)
    rw [Int64.toInt_mod, Int.abs_eq_natAbs, Int.abs_eq_natAbs, Int.natAbs_tmod]
    exact_mod_cast Nat.mod_lt _ (Int.natAbs_pos.2 hr)
  sign := by
    rw [Int64.toInt_mod, Int.sign_tmod]
    split
    next hd => exact .inl (Int.tmod_eq_zero_of_dvd hd)
    next => exact .inr rfl
  exact_of_fits hf := by
    rw [toInt_div_of_fits hf, Int64.toInt_mod, Int.mul_comm, Int.mul_tdiv_add_tmod]
  of_overflow ho := by
    rw [Int64.toInt_div, Int64.toInt_mod, ho.1, ho.2]
    decide

def shiftAmount (r : Int) : Nat := (r % 64).toNat

theorem shiftAmount_lt (r : Int) : shiftAmount r < 64 := by
  unfold shiftAmount
  omega

theorem cast_shiftAmount (r : Int) : (shiftAmount r : Int) = r % 64 := by
  unfold shiftAmount
  omega

theorem shiftAmount_eq_low_bits (r : Int64) :
    shiftAmount r.toInt = (r.toUInt64.toUInt32 &&& 63).toNat := by
  have hr : r.toInt = r.toUInt64.toNat ∨ r.toInt = r.toUInt64.toNat - 2 ^ 64 := by
    have h := BitVec.toInt_eq_toNat_cond r.toBitVec
    rw [Int64.toInt_toBitVec] at h
    split at h
    · exact .inl h
    · exact .inr h
  have hmask : (r.toUInt64.toUInt32 &&& 63).toNat = r.toUInt64.toNat % 2 ^ 32 % 64 := by
    rw [UInt32.toNat_and, UInt64.toNat_toUInt32]
    exact Nat.and_two_pow_sub_one_eq_mod _ 6
  rw [hmask, shiftAmount]
  omega

theorem toNat_smod_64 (r : Int64) : (r.toBitVec.smod 64).toNat = shiftAmount r.toInt := by
  have h : (r.toBitVec.smod 64).toInt = shiftAmount r.toInt := by
    rw [BitVec.toInt_smod, Int64.toInt_toBitVec, cast_shiftAmount]
    exact Int.fmod_eq_emod_of_nonneg _ (by decide)
  have := shiftAmount_lt r.toInt
  rw [BitVec.toInt_eq_toNat_cond] at h
  split at h <;> omega

theorem toInt_shiftLeft (l r : Int64) :
    (l <<< r).toInt = (l.toInt * 2 ^ shiftAmount r.toInt).bmod (2 ^ 64) := by
  have h : (l <<< r).toInt = (l.toBitVec <<< shiftAmount r.toInt).toInt := by
    rw [← Int64.toInt_toBitVec, Int64.toBitVec_shiftLeft, BitVec.shiftLeft_eq', toNat_smod_64]
  rw [h, BitVec.toInt_shiftLeft, Nat.shiftLeft_eq, ← Int64.toInt_toBitVec l,
    BitVec.toInt_eq_toNat_bmod l.toBitVec, Int.bmod_mul_bmod]
  push_cast
  rfl

theorem toInt_shiftRight (l r : Int64) :
    (l >>> r).toInt = ⌊(l.toInt : ℚ) / 2 ^ shiftAmount r.toInt⌋ := by
  have h : (l >>> r).toInt = l.toInt / (2 ^ shiftAmount r.toInt : Nat) := by
    rw [← Int64.toInt_toBitVec, Int64.toBitVec_shiftRight, BitVec.toInt_sshiftRight',
      toNat_smod_64, Int64.toInt_toBitVec, Int.shiftRight_eq_div_pow]
  rw [h, ← Rat.floor_intCast_div_natCast]
  push_cast
  rfl

/-- The bits of an integer in two's complement go on without end, as the uppermost one. -/
theorem testBit_toInt {w : Nat} (x : BitVec w) (i : Nat) :
    x.toInt.testBit i = if i < w then x.getLsbD i else x.msb := by
  rw [BitVec.toInt_eq_msb_cond]
  cases hm : x.msb with
  | false =>
    have h : (x.toNat : Int).testBit i = x.getLsbD i := rfl
    simp only [Bool.false_eq_true, if_false, h]
    split
    · rfl
    next hi => exact BitVec.getLsbD_of_ge x i (Nat.le_of_not_lt hi)
  | true =>
    -- A negative integer has the bits of the complement, each of them inverted.
    have h : (x.toNat : Int) - (2 ^ w : Nat) = .negSucc (~~~x).toNat := by
      have := x.isLt
      rw [BitVec.toNat_not, Int.negSucc_eq]
      omega
    have hb : (Int.negSucc (~~~x).toNat).testBit i = !(~~~x).getLsbD i := rfl
    simp only [if_true, h, hb, BitVec.getLsbD_not]
    split
    next hi => simp [hi]
    next hi => simp [hi]

theorem testBit_toInt_of_bits {l r x : Int64} {f : Bool → Bool → Bool}
    (h : ∀ i, x.toBitVec.getLsbD i = f (l.toBitVec.getLsbD i) (r.toBitVec.getLsbD i))
    (hm : x.toBitVec.msb = f l.toBitVec.msb r.toBitVec.msb) (i : Nat) :
    x.toInt.testBit i = f (l.toInt.testBit i) (r.toInt.testBit i) := by
  simp only [← Int64.toInt_toBitVec, testBit_toInt]
  split
  · exact h i
  · exact hm

namespace Operator

variable {op : Operator}

def exactResult? : Operator → Option (Int → Int → Int)
  | .add => some fun l r => l + r
  | .subtract => some fun l r => l - r
  | .multiply => some fun l r => l * r
  | .shiftLeft => some fun l r => l * 2 ^ shiftAmount r
  | _ => none

def bitwise? : Operator → Option (Bool → Bool → Bool)
  | .bitAnd => some fun a b => a && b
  | .bitOr => some fun a b => a || b
  | .bitXor => some fun a b => a ^^ b
  | _ => none

def comparison? : Operator → Option (Int → Int → Bool)
  | .equal => some fun l r => l = r
  | .notEqual => some fun l r => l ≠ r
  | .greater => some fun l r => l > r
  | .greaterEqual => some fun l r => l ≥ r
  | .less => some fun l r => l < r
  | .lessEqual => some fun l r => l ≤ r
  | _ => none

theorem exists_apply_of_exactResult? {f : Int → Int → Int} (h : op.exactResult? = some f)
    (l r : Int64) :
    ∃ x, op.apply (.int l) (.int r) = .ok (.int x) ∧
      ∀ y, Wraps (f l.toInt r.toInt) y ↔ y = x := by
  cases op <;> cases h
  case add => exact ⟨_, rfl, wraps_iff_of_toInt_eq_bmod (Int64.toInt_add l r)⟩
  case subtract => exact ⟨_, rfl, wraps_iff_of_toInt_eq_bmod (Int64.toInt_sub l r)⟩
  case multiply => exact ⟨_, rfl, wraps_iff_of_toInt_eq_bmod (Int64.toInt_mul l r)⟩
  case shiftLeft => exact ⟨_, rfl, wraps_iff_of_toInt_eq_bmod (toInt_shiftLeft l r)⟩

theorem exists_apply_of_bitwise? {f : Bool → Bool → Bool} (h : op.bitwise? = some f)
    (l r : Int64) :
    ∃ x, op.apply (.int l) (.int r) = .ok (.int x) ∧
      ∀ i, x.toInt.testBit i = f (l.toInt.testBit i) (r.toInt.testBit i) := by
  cases op <;> cases h
  case bitAnd =>
    exact ⟨l &&& r, rfl, testBit_toInt_of_bits (fun _ => BitVec.getLsbD_and) BitVec.msb_and⟩
  case bitOr =>
    exact ⟨l ||| r, rfl, testBit_toInt_of_bits (fun _ => BitVec.getLsbD_or) BitVec.msb_or⟩
  case bitXor =>
    exact ⟨l ^^^ r, rfl, testBit_toInt_of_bits (fun _ => BitVec.getLsbD_xor) BitVec.msb_xor⟩

theorem apply_of_comparison? {f : Int → Int → Bool} (h : op.comparison? = some f)
    (l r : Int64) : op.apply (.int l) (.int r) = .ok (.bool (f l.toInt r.toInt)) := by
  cases op <;> cases h <;>
    simp [apply, applyInt, bne, beq_eq_decide, Int64.toInt_inj, Int64.lt_iff_toInt_lt,
      Int64.le_iff_toInt_le]

theorem apply_eq_divisionByZero_iff (h : op = .divide ∨ op = .modulo) (l r : Int64) :
    op.apply (.int l) (.int r) = .error .divisionByZero ↔ r.toInt = 0 := by
  have hr : r.toInt = 0 ↔ r = 0 := Int64.toInt_inj (y := 0)
  obtain rfl | rfl := h <;> simp [apply, applyInt, hr]

theorem exists_apply_divide_modulo {l r : Int64} (h : r.toInt ≠ 0) :
    ∃ q m, divide.apply (.int l) (.int r) = .ok (.int q) ∧
      modulo.apply (.int l) (.int r) = .ok (.int m) ∧ Division l r q m := by
  have hr : r ≠ 0 := fun hr => h (congrArg Int64.toInt hr)
  exact ⟨l / r, l % r, if_neg hr, if_neg hr, division_div_mod hr⟩

/-- What the operators answer on two whole numbers, in terms of the integers that these stand for:
sums, differences, products and shifts to the left wrap around; a division fails for the divisor
zero alone and truncates; a shift goes by the amount modulo 64, and to the right it rounds down;
bits are those of two's complement; comparisons are those of the integers. -/
theorem apply_int (l r : Int64) :
    (∀ op f, exactResult? op = some f →
      ∃ x, op.apply (.int l) (.int r) = .ok (.int x) ∧
        ∀ y, Wraps (f l.toInt r.toInt) y ↔ y = x) ∧
    (∀ op, op = divide ∨ op = modulo →
      (op.apply (.int l) (.int r) = .error .divisionByZero ↔ r.toInt = 0)) ∧
    (r.toInt ≠ 0 →
      ∃ q m, divide.apply (.int l) (.int r) = .ok (.int q) ∧
        modulo.apply (.int l) (.int r) = .ok (.int m) ∧ Division l r q m) ∧
    ((shiftAmount r.toInt : Int) = r.toInt % 64 ∧ shiftAmount r.toInt < 64 ∧
      shiftAmount r.toInt = (r.toUInt64.toUInt32 &&& 63).toNat) ∧
    (∃ x, shiftRight.apply (.int l) (.int r) = .ok (.int x) ∧
      x.toInt = ⌊(l.toInt : ℚ) / 2 ^ shiftAmount r.toInt⌋) ∧
    (∀ op f, bitwise? op = some f →
      ∃ x, op.apply (.int l) (.int r) = .ok (.int x) ∧
        ∀ i, x.toInt.testBit i = f (l.toInt.testBit i) (r.toInt.testBit i)) ∧
    (∀ op f, comparison? op = some f →
      op.apply (.int l) (.int r) = .ok (.bool (f l.toInt r.toInt))) := by
  refine ⟨fun op f h => exists_apply_of_exactResult? h l r,
    fun op h => apply_eq_divisionByZero_iff h l r, exists_apply_divide_modulo,
    ⟨cast_shiftAmount _, shiftAmount_lt _, shiftAmount_eq_low_bits r⟩,
    ⟨_, rfl, toInt_shiftRight l r⟩, fun op f h => exists_apply_of_bitwise? h l r,
    fun op f h => apply_of_comparison? h l r⟩

example : divide.apply (.int Int64.minValue) (.int (-1)) = .ok (.int Int64.minValue) ∧
    shiftRight.apply (.int (-9)) (.int (-63)) = .ok (.int (-5)) := by
  decide

end Operator

end FlatScript
