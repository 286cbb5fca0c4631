import Mathlib.Algebra.Order.Ring.Abs
import FlatScript.Template
import FlatScript.Proofs.Decimal

namespace FlatScript

/-! ### Rounded quotients -/

/-- A rounded quotient is the one below or the one above, and of two that are equally near the even
one. -/
theorem roundDiv_cases (num : Nat) {den : Nat} (hd : 0 < den) :
    (num = roundDiv num den * den + num % den ∧ 2 * (num % den) ≤ den ∧
      (2 * (num % den) = den → 2 ∣ roundDiv num den)) ∨
    (num + (den - num % den) = roundDiv num den * den ∧ den ≤ 2 * (num % den) ∧
      (2 * (num % den) = den → 2 ∣ roundDiv num den)) := by
  have hsplit : num / den * den + num % den = num := Nat.div_add_mod' num den
  have hmod := Nat.mod_lt num hd
  simp only [roundDiv]
  generalize num / den = q at *
  generalize num % den = r at *
  have hsucc := Nat.add_one_mul q den
  split
  next h => exact .inl ⟨hsplit.symm, by omega, by omega⟩
  next h =>
    split
    next h' => exact .inr ⟨by omega, by omega, by omega⟩
    next h' =>
      rcases Nat.mod_two_eq_zero_or_one q with hq | hq
      · rw [hq, Nat.add_zero]
        exact .inl ⟨hsplit.symm, by omega, by omega⟩
      · rw [hq]
        exact .inr ⟨by omega, by omega, by omega⟩

theorem two_mul_abs_roundDiv_sub_le (num : Nat) {den : Nat} (hd : 0 < den) :
    2 * |(roundDiv num den * den : Int) - num| ≤ den ∧
      (2 * |(roundDiv num den * den : Int) - num| = den → 2 ∣ roundDiv num den) := by
  have hmod := Nat.mod_lt num hd
  obtain ⟨h, hle, he⟩ | ⟨h, hle, he⟩ := roundDiv_cases num hd
  · have habs : |(roundDiv num den * den : Int) - num| = (num % den : Nat) := by
      rw [abs_of_nonpos] <;> omega
    omega
  · have habs : |(roundDiv num den * den : Int) - num| = (den - num % den : Nat) := by
      rw [abs_of_nonneg] <;> omega
    omega

theorem abs_roundDiv_sub_le (num : Nat) {den : Nat} (hd : 0 < den) (q : Int) :
    |(roundDiv num den * den : Int) - num| ≤ |q * den - num| ∧
      (|q * den - num| = |(roundDiv num den * den : Int) - num| → q ≠ roundDiv num den →
        2 * |(roundDiv num den * den : Int) - num| = den) := by
  have hhalf := (two_mul_abs_roundDiv_sub_le num hd).1
  by_cases hq : q = roundDiv num den
  · subst hq
    exact ⟨le_refl _, fun _ h => absurd rfl h⟩
  · have hgap : (den : Int) ≤ |q * den - roundDiv num den * den| := by
      rw [← sub_mul, abs_mul, Nat.abs_cast]
      exact le_mul_of_one_le_left (by omega) (Int.one_le_abs (sub_ne_zero.2 hq))
    have htri := abs_sub_le (q * den : Int) num (roundDiv num den * den)
    rw [abs_sub_comm (num : Int)] at htri
    exact ⟨by omega, fun _ _ => by omega⟩

theorem le_roundDiv {num den k : Nat} (hd : 0 < den) (h : k * den ≤ num) :
    k ≤ roundDiv num den := by
  have hle := (Nat.le_div_iff_mul_le hd).2 h
  simp only [roundDiv]
  split
  · exact hle
  · split
    · omega
    · omega

theorem roundDiv_le {num den k : Nat} (hd : 0 < den) (h : num ≤ k * den) :
    roundDiv num den ≤ k := by
  have hhalf := (two_mul_abs_roundDiv_sub_le num hd).1
  have hle := le_abs_self ((roundDiv num den * den : Int) - num)
  have hsucc := Nat.add_one_mul k den
  have hlt : roundDiv num den * den < (k + 1) * den := by omega
  exact Nat.le_of_lt_succ (Nat.lt_of_mul_lt_mul_right hlt)

/-! ### Precision -/

/-- At most `p` binary digits, zeros behind them apart. -/
def HasPrecision (p : Nat) (n : Int) : Prop := ∃ m e : Nat, n.natAbs = m * 2 ^ e ∧ m < 2 ^ p

/-- Of the integers with precision `p`, `k` is the nearest to `n`; where another one is as near, the
significand of `k` is even, their distance being twice that to `n`. -/
structure IsRounded (p : Nat) (n k : Int) : Prop where
  hasPrecision : HasPrecision p k
  nearest : ∀ j, HasPrecision p j → |k - n| ≤ |j - n|
  even : ∀ j, HasPrecision p j → |j - n| = |k - n| → j ≠ k → 4 * |k - n| ∣ k

theorem IsRounded.eq_iff {p : Nat} {n k : Int} (h : IsRounded p n k) :
    k = n ↔ HasPrecision p n := by
  constructor
  · rintro rfl
    exact h.hasPrecision
  · intro hn
    have := h.nearest n hn
    rw [sub_self, abs_zero] at this
    exact sub_eq_zero.1 (abs_nonpos_iff.1 this)

def roundTo (p a : Nat) : Nat :=
  let e := a.log2 + 1 - p
  roundDiv a (2 ^ e) * 2 ^ e

section

variable {p a : Nat}

theorem significand_bounds (hp : 0 < p) (ha : a ≠ 0) (h : p ≤ a.log2 + 1) :
    2 ^ (p - 1) ≤ roundDiv a (2 ^ (a.log2 + 1 - p)) ∧
      roundDiv a (2 ^ (a.log2 + 1 - p)) ≤ 2 ^ p := by
  constructor
  · refine le_roundDiv (Nat.two_pow_pos _) ?_
    rw [← Nat.pow_add]
    exact (Nat.pow_le_pow_right (by decide) (by omega)).trans (Nat.log2_self_le ha)
  · refine roundDiv_le (Nat.two_pow_pos _) ?_
    rw [← Nat.pow_add]
    exact (Nat.le_of_lt Nat.lt_log2_self).trans (Nat.pow_le_pow_right (by decide) (by omega))

theorem roundTo_eq_self (h : a.log2 + 1 ≤ p) : roundTo p a = a := by
  have he : a.log2 + 1 - p = 0 := Nat.sub_eq_zero_of_le h
  have hone := roundDiv_mul_left Nat.one_pos a
  rw [Nat.mul_one] at hone
  simp only [roundTo, he, Nat.pow_zero, Nat.mul_one, hone]

theorem log2_mul_two_pow {a : Nat} (ha : a ≠ 0) (s : Nat) :
    (a * 2 ^ s).log2 = a.log2 + s := by
  rw [Nat.log2_eq_iff (Nat.mul_ne_zero ha (Nat.ne_of_gt (Nat.two_pow_pos s))), Nat.pow_add,
    Nat.add_right_comm, Nat.pow_add]
  exact ⟨Nat.mul_le_mul_right _ (Nat.log2_self_le ha),
    Nat.mul_lt_mul_of_pos_right Nat.lt_log2_self (Nat.two_pow_pos s)⟩

theorem roundTo_mul_two_pow (ha : a ≠ 0) (s : Nat) :
    roundTo p (a * 2 ^ s) = roundTo p a * 2 ^ s := by
  rcases Nat.le_total p (a.log2 + 1) with h | h
  · have he : a.log2 + s + 1 - p = a.log2 + 1 - p + s := by omega
    simp only [roundTo, log2_mul_two_pow ha, he, Nat.pow_add,
      roundDiv_mul_right (Nat.two_pow_pos s), Nat.mul_assoc]
  · obtain ⟨t, ht⟩ : ∃ t, s = t + (a.log2 + s + 1 - p) := ⟨s - (a.log2 + s + 1 - p), by omega⟩
    have hsplit : a * 2 ^ s = a * 2 ^ t * 2 ^ (a.log2 + s + 1 - p) := by
      rw [Nat.mul_assoc, ← Nat.pow_add, ← ht]
    rw [roundTo_eq_self h]
    simp only [roundTo, log2_mul_two_pow ha]
    rw [hsplit, roundDiv_mul_left (Nat.two_pow_pos _)]

theorem hasPrecision_of_natAbs_le (hp : 0 < p) {n : Int} (h : n.natAbs ≤ 2 ^ p) :
    HasPrecision p n := by
  rcases Nat.lt_or_eq_of_le h with hlt | heq
  · exact ⟨n.natAbs, 0, by simp, hlt⟩
  · exact ⟨1, p, by rw [heq, Nat.one_mul], Nat.one_lt_two_pow (Nat.ne_of_gt hp)⟩

theorem hasPrecision_roundTo (hp : 0 < p) (ha : a ≠ 0) : HasPrecision p (roundTo p a) := by
  rcases Nat.le_total (a.log2 + 1) p with h | h
  · rw [roundTo_eq_self h]
    exact hasPrecision_of_natAbs_le hp
      (Nat.lt_log2_self.le.trans (Nat.pow_le_pow_right (by decide) h))
  · obtain ⟨-, hle⟩ := significand_bounds hp ha h
    rcases Nat.lt_or_eq_of_le hle with hlt | heq
    · exact ⟨_, _, rfl, hlt⟩
    · refine ⟨2 ^ (p - 1), a.log2 + 1 - p + 1, ?_, Nat.pow_lt_pow_right (by decide) (by omega)⟩
      rw [roundTo, heq, Int.natAbs_natCast, ← Nat.pow_add, ← Nat.pow_add]
      congr 1
      omega

theorem dvd_or_lt_of_hasPrecision {j : Int} (hj : HasPrecision p j) :
    ((2 ^ (a.log2 + 1 - p) : Nat) : Int) ∣ j ∨ j < (2 ^ a.log2 : Nat) := by
  obtain ⟨m, e, hm, hlt⟩ := hj
  rcases Nat.lt_or_ge e (a.log2 + 1 - p) with he | he
  · have hlt : j.natAbs < 2 ^ a.log2 := by
      rw [hm]
      calc m * 2 ^ e < 2 ^ p * 2 ^ e := Nat.mul_lt_mul_of_pos_right hlt (Nat.two_pow_pos e)
        _ = 2 ^ (p + e) := (Nat.pow_add ..).symm
        _ ≤ 2 ^ a.log2 := Nat.pow_le_pow_right (by decide) (by omega)
    exact .inr (by omega)
  · have hdvd : 2 ^ (a.log2 + 1 - p) ∣ j.natAbs :=
      hm ▸ (Nat.pow_dvd_pow 2 he).trans (Nat.dvd_mul_left ..)
    exact .inl (Int.ofNat_dvd_left.2 hdvd)

theorem abs_roundTo_sub_lt (hp : 0 < p) (ha : a ≠ 0) {j : Int} (hj : j < (2 ^ a.log2 : Nat)) :
    |(roundTo p a : Int) - a| < |j - a| := by
  have hpow : ((2 ^ a.log2 : Nat) : Int) =
      (2 ^ (a.log2 - (a.log2 + 1 - p)) : Nat) * (2 ^ (a.log2 + 1 - p) : Nat) := by
    rw [← Nat.cast_mul, ← Nat.pow_add]
    congr 2
    omega
  have hle : ((2 ^ a.log2 : Nat) : Int) ≤ a := Nat.cast_le.2 (Nat.log2_self_le ha)
  calc |(roundTo p a : Int) - a| ≤ |((2 ^ a.log2 : Nat) : Int) - a| := by
        rw [hpow, roundTo, Nat.cast_mul]
        exact (abs_roundDiv_sub_le a (Nat.two_pow_pos _) _).1
    _ < |j - a| := by
        rw [abs_of_nonpos (by omega), abs_of_nonpos (by omega)]
        omega

theorem isRounded_roundTo_of_ne_zero (hp : 0 < p) (ha : a ≠ 0) :
    IsRounded p a (roundTo p a) where
  hasPrecision := hasPrecision_roundTo hp ha
  nearest j hj := by
    rcases dvd_or_lt_of_hasPrecision (a := a) hj with ⟨q, rfl⟩ | hlt
    · rw [mul_comm, roundTo, Nat.cast_mul]
      exact (abs_roundDiv_sub_le a (Nat.two_pow_pos _) q).1
    · exact Int.le_of_lt (abs_roundTo_sub_lt hp ha hlt)
  even j hj heq hne := by
    rcases dvd_or_lt_of_hasPrecision (a := a) hj with ⟨q, rfl⟩ | hlt
    · have hd := Nat.two_pow_pos (a.log2 + 1 - p)
      rw [mul_comm, roundTo, Nat.cast_mul] at heq hne
      rw [roundTo, Nat.cast_mul]
      have hhalf := (abs_roundDiv_sub_le a hd q).2 heq fun h => hne (by rw [h])
      have heven := (two_mul_abs_roundDiv_sub_le a hd).2 hhalf
      have htwo : 4 * |(roundDiv a (2 ^ (a.log2 + 1 - p)) * (2 ^ (a.log2 + 1 - p) : Nat) : Int) - a|
          = 2 * (2 ^ (a.log2 + 1 - p) : Nat) := by omega
      rw [htwo]
      exact mul_dvd_mul_right (by exact_mod_cast heven) _
    · exact absurd heq (ne_of_gt (abs_roundTo_sub_lt hp ha hlt))

theorem roundTo_ne_zero (hp : 0 < p) (ha : a ≠ 0) : roundTo p a ≠ 0 := by
  intro h
  have hlt := abs_roundTo_sub_lt hp ha (j := 0) (Nat.cast_pos.2 (Nat.two_pow_pos _))
  rw [h] at hlt
  exact lt_irrefl _ hlt

theorem roundTo_zero (p : Nat) : roundTo p 0 = 0 := by
  simp [roundTo, roundDiv]

theorem isRounded_roundTo (hp : 0 < p) (a : Nat) : IsRounded p a (roundTo p a) := by
  rcases eq_or_ne a 0 with rfl | ha
  · rw [roundTo_zero]
    exact ⟨hasPrecision_of_natAbs_le hp (Nat.zero_le _), fun j _ => by simp, fun j _ _ _ => by simp⟩
  · exact isRounded_roundTo_of_ne_zero hp ha

end

theorem IsRounded.neg {p : Nat} {n k : Int} (h : IsRounded p n k) : IsRounded p (-n) (-k) := by
  have hneg : ∀ j, HasPrecision p j → HasPrecision p (-j) := by
    rintro j ⟨m, e, hm, hlt⟩
    exact ⟨m, e, by rwa [Int.natAbs_neg], hlt⟩
  have habs : ∀ j : Int, |j - -n| = |-j - n| := fun j => by
    rw [← abs_neg]
    congr 1
    ring
  refine ⟨hneg _ h.hasPrecision, fun j hj => ?_, fun j hj heq hne => ?_⟩
  · rw [habs, habs, neg_neg]
    exact h.nearest _ (hneg _ hj)
  · rw [habs, habs, neg_neg] at heq
    rw [habs, neg_neg, dvd_neg]
    exact h.even _ (hneg _ hj) heq fun he => hne (by rw [← he, neg_neg])

/-! ### Double precision -/

namespace BinaryFormat

variable {f : BinaryFormat}

theorem units_nearest_zero (hp : 0 < f.precision) : f.units (f.nearest 0 1) = 0 := by
  have he : 1 - f.precision = 0 := Nat.sub_eq_zero_of_le hp
  have hn : f.nearest 0 1 = 0 := by simp [nearest, roundDiv, he]
  rw [hn, units, if_pos f.step_pos]

/-- The value of the magnitude that is nearest to a whole number. -/
theorem units_nearest_whole {a : Nat} (hp : 0 < f.precision) (hs : f.precision ≤ f.scale + 1)
    (ha : a ≠ 0) (hfin : (a.log2 + f.scale + 3) * f.step ≤ f.infinity) :
    f.units (f.nearest a 1) = roundTo f.precision a * Nat.pow 2 f.scale := by
  have hlog := log2_mul_two_pow ha f.scale
  have ha' : a * 2 ^ f.scale ≠ 0 := Nat.mul_ne_zero ha (Nat.ne_of_gt (Nat.two_pow_pos _))
  have htwo : 2 ^ f.precision = 2 * f.step := by
    rw [step, ← Nat.sub_add_cancel hp, Nat.pow_succ']
    rfl
  have hn : f.nearest a 1 = min (((a * 2 ^ f.scale).log2 + 1 - f.precision) * f.step +
      roundDiv (a * 2 ^ f.scale) (2 ^ ((a * 2 ^ f.scale).log2 + 1 - f.precision))) f.infinity := by
    simp only [nearest, Nat.div_one, Nat.one_mul]
    rfl
  obtain ⟨hle, hle'⟩ := significand_bounds hp ha' (by rw [hlog]; omega)
  rw [htwo] at hle'
  rw [hn, Nat.pow_eq, ← roundTo_mul_two_pow ha, roundTo, Nat.min_eq_left, units_mul_step_add hle hle']
  · rfl
  · have hshift : (a * 2 ^ f.scale).log2 + 1 - f.precision ≤ a.log2 + f.scale + 1 := by omega
    have := Nat.mul_le_mul_right f.step hshift
    rw [Nat.add_mul] at hfin this
    omega

end BinaryFormat

/-! ### Six places -/

/-- The digits are those of the quotient with so many places, of two that are equally near those
that end in an even one. -/
def Decimal.IsFixed (places num den : Nat) (cs : List Char) : Prop :=
  ∃ whole fraction, cs = whole ++ '.' :: fraction ∧ IsWhole whole ∧ IsDigits fraction ∧
    fraction.length = places ∧
    2 * |(ofDigits (whole ++ fraction) * den : Int) - (num * 10 ^ places : Nat)| ≤ den ∧
    (2 * |(ofDigits (whole ++ fraction) * den : Int) - (num * 10 ^ places : Nat)| = den →
      2 ∣ ofDigits (whole ++ fraction))

theorem Decimal.exists_padded {places n : Nat} (hp : 0 < places) (hn : n < 10 ^ places) :
    ∃ ds, ds = zeros (places - n.repr.toList.length) ++ n.repr.toList ∧ IsDigits ds ∧
      ds.length = places ∧ ofDigits ds = n := by
  have hlen := (Nat.length_toDigits_le_iff (b := 10) (by decide) hp).2 hn
  rw [Nat.toList_repr]
  refine ⟨_, rfl, List.forall_mem_append.2 ⟨isDigits_zeros _, isDigits_toDigits n⟩, ?_, ?_⟩
  · rw [List.length_append, zeros, List.length_replicate, Nat.sub_add_cancel hlen]
  · rw [ofDigits_zeros_append, ofDigits_toDigits]

theorem Decimal.isFixed_writeFixed {places : Nat} (hp : 0 < places) (num : Nat) {den : Nat}
    (hd : 0 < den) : IsFixed places num den (writeFixed places num den) := by
  have hround := two_mul_abs_roundDiv_sub_le (num * 10 ^ places) hd
  have hpow : Nat.pow 10 places = 10 ^ places := rfl
  rw [writeFixed, hpow]
  generalize roundDiv (num * 10 ^ places) den = n at hround ⊢
  obtain ⟨ds, hds, hdigits, hlen, hval⟩ :=
    exists_padded hp (Nat.mod_lt n (Nat.pow_pos (n := places) (by decide : 0 < 10)))
  have hn : ofDigits (Nat.toDigits 10 (n / 10 ^ places) ++ ds) = n := by
    rw [ofDigits_append, ofDigits_toDigits, hlen, hval, Nat.div_add_mod']
  refine ⟨_, ds, ?_, isWhole_toDigits (n / 10 ^ places), hdigits, hlen, by rwa [hn]⟩
  simp [hds]

theorem writeFixed_whole (places k : Nat) {den : Nat} (hd : 0 < den) :
    Decimal.writeFixed places (k * den) den =
      k.repr.toList ++ '.' :: Decimal.zeros (places - 1) ++ ['0'] := by
  have h10 : 0 < Nat.pow 10 places := Nat.pow_pos (by decide)
  have hround : roundDiv (k * den * Nat.pow 10 places) den = k * Nat.pow 10 places := by
    rw [Nat.mul_right_comm]
    exact roundDiv_mul_left hd _
  simp only [Decimal.writeFixed, hround, Nat.mul_mod_left, Nat.mul_div_cancel _ h10]
  rfl

namespace BinaryFormat

theorem units_nearest_binary64 {a : Nat} (h : a < 2 ^ 64) :
    binary64.units (binary64.nearest a 1) = roundTo 53 a * Nat.pow 2 binary64.scale := by
  rcases eq_or_ne a 0 with rfl | ha
  · rw [roundTo_zero, Nat.zero_mul, units_nearest_zero (by decide)]
  · have hlog : a.log2 < 64 := (Nat.log2_lt ha).2 h
    have hstep : binary64.step = 2 ^ 52 := rfl
    have hinf : binary64.infinity = 2047 * 2 ^ 52 := rfl
    refine units_nearest_whole (by decide) (by decide) ha ?_
    have hscale : binary64.scale = 1074 := rfl
    rw [hstep, hinf, hscale]
    exact Nat.mul_le_mul_right _ (by omega)

end BinaryFormat

theorem writeFixedInt_eq (n : Int64) :
    writeFixedInt n = .ofList (if n.toInt < 0 then ['-'] else []) ++
      ((roundTo 53 n.toInt.natAbs).repr ++ ".000000") := by
  have hbound : n.toInt.natAbs < 2 ^ 64 := by
    have := n.le_toInt
    have := n.toInt_lt
    omega
  have hsign : (if n < 0 then ['-'] else []) = if n.toInt < 0 then ['-'] else [] :=
    if_congr Int64.lt_iff_toInt_lt rfl rfl
  have hfixed := writeFixed_whole 6 (roundTo 53 n.toInt.natAbs)
    BinaryFormat.binary64.pow_scale_pos
  refine String.toList_inj.1 ?_
  simp only [writeFixedInt, BinaryFormat.units_nearest_binary64 hbound, hsign, String.toList_ofList,
    String.toList_append]
  congr 1
  exact hfixed.trans (by simp; rfl)

/-- A whole number with six places is the text of one that it is rounded to, and zeros. -/
theorem exists_writeFixedInt_eq (n : Int64) :
    ∃ k : Int, writeFixedInt n = toString k ++ ".000000" ∧ IsRounded 53 n.toInt k := by
  have hr := isRounded_roundTo (p := 53) (by decide) n.toInt.natAbs
  have htext := writeFixedInt_eq n
  rcases lt_or_ge n.toInt 0 with hn | hn
  · have hne : n.toInt.natAbs ≠ 0 := Int.natAbs_ne_zero.2 (ne_of_lt hn)
    obtain ⟨k, hk⟩ := Nat.exists_eq_succ_of_ne_zero (roundTo_ne_zero (p := 53) (by decide) hne)
    refine ⟨-(roundTo 53 n.toInt.natAbs : Int), ?_, ?_⟩
    · rw [htext, if_pos hn, hk, ← String.append_assoc]
      rfl
    · have habs : -(n.toInt.natAbs : Int) = n.toInt := by omega
      simpa only [habs] using hr.neg
  · refine ⟨roundTo 53 n.toInt.natAbs, ?_, ?_⟩
    · rw [htext, if_neg (Int.not_lt.2 hn)]
      rfl
    · rwa [Int.natAbs_of_nonneg hn] at hr

theorem format_single_verb (value : Value) :
    formatTemplate "%f" [value] = Verb.f.write value ∧
      formatTemplate "%d" [value] = Verb.d.write value ∧
      formatTemplate "%v" [value] = Verb.v.write value :=
  ⟨String.append_empty, String.append_empty, String.append_empty⟩

/-- `%f` writes the number of 53 binary digits that a whole number is rounded to, of two the one
with the even significand, with six zeros behind the point; that is the number that `%d` and `%v`
write if it has no more than 53 binary digits, and only then. -/
theorem format_f_int (n : Int64) :
    ∃ k : Int, formatTemplate "%f" [.int n] = toString k ++ ".000000" ∧ IsRounded 53 n.toInt k ∧
      (k = n.toInt ↔ HasPrecision 53 n.toInt) ∧ (n.toInt.natAbs ≤ 2 ^ 53 → k = n.toInt) ∧
      formatTemplate "%d" [.int n] = toString n.toInt ∧
      formatTemplate "%v" [.int n] = toString n.toInt := by
  obtain ⟨k, htext, hk⟩ := exists_writeFixedInt_eq n
  obtain ⟨hf, hd, hv⟩ := format_single_verb (.int n)
  exact ⟨k, hf.trans htext, hk, hk.eq_iff,
    fun h => hk.eq_iff.2 (hasPrecision_of_natAbs_le (by decide) h), hd, hv⟩

theorem not_forall_format_f_int :
    formatTemplate "%f" [.int 9007199254740993] = "9007199254740992.000000" ∧
      ¬ ∀ n : Int64, formatTemplate "%f" [.int n] = toString n.toInt ++ ".000000" := by
  have h : formatTemplate "%f" [.int 9007199254740993] = "9007199254740992.000000" := by
    decide +kernel
  refine ⟨h, fun hall => ?_⟩
  have hn := (hall 9007199254740993).symm.trans h
  revert hn
  decide +kernel

end FlatScript
