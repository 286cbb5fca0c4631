import Mathlib.Algebra.Order.Field.Rat
import Mathlib.Data.List.TakeWhile
import Mathlib.Tactic.FieldSimp
import Mathlib.Tactic.Ring
import FlatScript.Number.Layout
import FlatScript.Number.Shortest
import FlatScript.Proofs.Numeral

namespace FlatScript

/-! ### Rounding -/

theorem roundDiv_mul_right {k : Nat} (hk : 0 < k) (num den : Nat) :
    roundDiv (num * k) (den * k) = roundDiv num den := by
  have hq : num * k / (den * k) = num / den := Nat.mul_div_mul_right _ _ hk
  have hr : num * k % (den * k) = num % den * k := Nat.mul_mod_mul_right _ _ _
  have hlt : 2 * (num % den * k) < den * k ↔ 2 * (num % den) < den := by
    rw [← Nat.mul_assoc]
    exact Nat.mul_lt_mul_right hk
  have hgt : den * k < 2 * (num % den * k) ↔ den < 2 * (num % den) := by
    rw [← Nat.mul_assoc]
    exact Nat.mul_lt_mul_right hk
  simp only [roundDiv, hq, hr, hlt, hgt]

theorem roundDiv_mul_left {den : Nat} (hd : 0 < den) (n : Nat) : roundDiv (n * den) den = n := by
  simp [roundDiv, hd]

namespace BinaryFormat

variable {f : BinaryFormat}

theorem nearest_mul_right {k : Nat} (hk : 0 < k) (num den : Nat) :
    f.nearest (num * k) (den * k) = f.nearest num den := by
  have hn : num * k * Nat.pow 2 f.scale = num * Nat.pow 2 f.scale * k := Nat.mul_right_comm _ _ _
  have hd : ∀ s, den * k * Nat.pow 2 s = den * Nat.pow 2 s * k :=
    fun s => Nat.mul_right_comm _ _ _
  simp only [nearest, hn, hd, Nat.mul_div_mul_right _ _ hk, roundDiv_mul_right hk]

theorem nearest_congr {num den num' den' : Nat} (hd : 0 < den) (hd' : 0 < den')
    (h : num * den' = num' * den) : f.nearest num den = f.nearest num' den' := by
  rw [← nearest_mul_right hd' num den, h, Nat.mul_comm den den', nearest_mul_right hd]

theorem step_pos (f : BinaryFormat) : 0 < f.step := Nat.pow_pos (by decide)

theorem pow_scale_pos (f : BinaryFormat) : 0 < Nat.pow 2 f.scale := Nat.pow_pos (by decide)

/-- The significand and the power of two that a magnitude beyond the smallest ones is made of. -/
theorem units_of_step_le {i : Nat} (hi : f.step ≤ i) :
    ∃ m e, f.units i = m * Nat.pow 2 e ∧ f.step ≤ m ∧ m < 2 * f.step ∧ e * f.step + m = i := by
  have hmod := Nat.mod_lt i f.step_pos
  have hdiv : 1 ≤ i / f.step := (Nat.one_le_div_iff f.step_pos).2 hi
  refine ⟨i % f.step + f.step, i / f.step - 1, if_neg (Nat.not_lt_of_le hi), by omega, by omega, ?_⟩
  have hsplit := Nat.div_add_mod' i f.step
  obtain ⟨e, he⟩ : ∃ e, i / f.step = e + 1 := ⟨_, (Nat.sub_add_cancel hdiv).symm⟩
  rw [he, Nat.succ_mul] at hsplit
  rw [he, Nat.add_sub_cancel]
  omega

theorem units_mul_step_add {m : Nat} (hm : f.step ≤ m) (hm' : m ≤ 2 * f.step) (s : Nat) :
    f.units (s * f.step + m) = m * Nat.pow 2 s := by
  have hstep := f.step_pos
  have hge : ¬ s * f.step + m < f.step := by omega
  rw [units, if_neg hge]
  rcases Nat.lt_or_eq_of_le hm' with hlt | rfl
  · have hi : s * f.step + m = m - f.step + (s + 1) * f.step := by
      rw [Nat.add_one_mul]
      omega
    have hr : m - f.step < f.step := by omega
    rw [hi, Nat.add_mul_mod_self_right, Nat.mod_eq_of_lt hr, Nat.add_mul_div_right _ _ hstep,
      Nat.div_eq_of_lt hr, Nat.zero_add, Nat.add_sub_cancel, Nat.sub_add_cancel hm]
  · have hi : s * f.step + 2 * f.step = (s + 2) * f.step := (Nat.add_mul ..).symm
    rw [hi, Nat.mul_mod_left, Nat.mul_div_cancel _ hstep, Nat.zero_add, Nat.pow_eq, Nat.pow_eq,
      Nat.mul_comm 2, Nat.mul_assoc, ← Nat.pow_succ']
    rfl

theorem log2_mul_pow {m : Nat} (hm : f.step ≤ m) (hm' : m < 2 * f.step) (e : Nat) :
    (m * Nat.pow 2 e).log2 = f.precision - 1 + e := by
  have hpos : m * Nat.pow 2 e ≠ 0 :=
    Nat.mul_ne_zero (by have := f.step_pos; omega) (Nat.ne_of_gt (Nat.pow_pos (by decide)))
  rw [Nat.log2_eq_iff hpos, Nat.pow_eq, Nat.add_right_comm, Nat.pow_add, Nat.pow_add]
  refine ⟨Nat.mul_le_mul_right _ hm, Nat.mul_lt_mul_of_pos_right ?_ (Nat.pow_pos (by decide))⟩
  rw [Nat.pow_succ]
  change m < f.step * 2
  omega

theorem nearest_units {i : Nat} (hp : 0 < f.precision) (hi : i ≤ f.infinity) :
    f.nearest (f.units i) (Nat.pow 2 f.scale) = i := by
  have hscale := f.pow_scale_pos
  have hq : f.units i * Nat.pow 2 f.scale / Nat.pow 2 f.scale = f.units i :=
    Nat.mul_div_cancel _ hscale
  have hr : ∀ s, roundDiv (f.units i * Nat.pow 2 f.scale) (Nat.pow 2 f.scale * Nat.pow 2 s) =
      roundDiv (f.units i) (Nat.pow 2 s) := by
    intro s
    rw [Nat.mul_comm (Nat.pow 2 f.scale), roundDiv_mul_right hscale]
  simp only [nearest, hq, hr]
  rcases Nat.lt_or_ge i f.step with hlt | hle
  · have hu : f.units i = i := if_pos hlt
    have hshift : i.log2 + 1 - f.precision = 0 := by
      rcases Nat.eq_zero_or_pos i with rfl | hpos
      · exact Nat.sub_eq_zero_of_le hp
      · have hlog := (Nat.log2_lt (Nat.ne_of_gt hpos)).2 hlt
        omega
    have hone : roundDiv i (Nat.pow 2 0) = i := by
      have h := roundDiv_mul_left Nat.one_pos i
      rwa [Nat.mul_one] at h
    rw [hu, hshift, hone, Nat.zero_mul, Nat.zero_add, Nat.min_eq_left hi]
  · obtain ⟨m, e, hu, hm, hm', hme⟩ := units_of_step_le hle
    have hshift : f.precision - 1 + e + 1 - f.precision = e := by omega
    have hround : roundDiv (m * Nat.pow 2 e) (Nat.pow 2 e) = m :=
      roundDiv_mul_left (Nat.pow_pos (by decide)) m
    rw [hu, log2_mul_pow hm hm', hshift, hround, hme, Nat.min_eq_left hi]

end BinaryFormat

/-! ### Values -/

namespace Decimal

/-- The number that a decimal stands for. -/
def value (d : Decimal) : ℚ := d.significand * 10 ^ d.exponent

theorem denominator_pos (d : Decimal) : 0 < d.denominator := Nat.pow_pos (by decide)

theorem numerator_div_denominator (d : Decimal) :
    (d.numerator : ℚ) / d.denominator = d.value := by
  obtain ⟨significand, exponent⟩ := d
  obtain ⟨n, rfl | rfl⟩ := exponent.eq_nat_or_neg
  · simp [numerator, denominator, value]
  · simp [numerator, denominator, value, div_eq_mul_inv]

end Decimal

namespace BinaryFormat

variable {f : BinaryFormat}

theorem ofDecimal_eq_of_value_eq {d d' : Decimal} (h : d.value = d'.value) :
    f.ofDecimal d = f.ofDecimal d' := by
  refine nearest_congr d.denominator_pos d'.denominator_pos ?_
  have hd : (d.denominator : ℚ) ≠ 0 := Nat.cast_ne_zero.2 (Nat.ne_of_gt d.denominator_pos)
  have hd' : (d'.denominator : ℚ) ≠ 0 := Nat.cast_ne_zero.2 (Nat.ne_of_gt d'.denominator_pos)
  rw [← d.numerator_div_denominator, ← d'.numerator_div_denominator, div_eq_div_iff hd hd'] at h
  exact_mod_cast h

theorem ofDecimal_toDecimal {i : Nat} (hp : 0 < f.precision) (hi : i ≤ f.infinity) :
    f.ofDecimal (f.toDecimal i) = i := by
  have hn : (f.toDecimal i).numerator = f.units i * Nat.pow 5 f.scale := by
    simp [toDecimal, Decimal.numerator]
  have hd : (f.toDecimal i).denominator = Nat.pow 2 f.scale * Nat.pow 5 f.scale := by
    simp [toDecimal, Decimal.denominator, ← Nat.mul_pow]
  have h5 : 0 < Nat.pow 5 f.scale := Nat.pow_pos (by decide)
  rw [ofDecimal, hn, hd, nearest_mul_right h5, nearest_units hp hi]

theorem ofDecimal_shortest {i : Nat} (hp : 0 < f.precision) (hi : i ≤ f.infinity) (tie : Tie) :
    f.ofDecimal (f.shortest tie i) = i := by
  rw [shortest]
  generalize f.leadingPlace (f.units i) (Nat.pow 2 f.scale) = place
  cases hs : (List.range f.precision).findSome? fun (n : Nat) =>
      f.candidate? tie i (place - 1 - n) with
  | none => exact ofDecimal_toDecimal hp hi
  | some d =>
    obtain ⟨n, -, hn⟩ := List.exists_of_findSome?_eq_some hs
    exact ofDecimal_candidate hn

end BinaryFormat

/-! ### Digits -/

theorem ofDigits_append (ds ds' : List Char) :
    ofDigits (ds ++ ds') = ofDigits ds * 10 ^ ds'.length + ofDigits ds' := by
  have h : ∀ cs, ofDigits cs = Nat.ofDigitChars 10 cs 0 := fun _ => rfl
  rw [h, h, h, Nat.ofDigitChars_append, Nat.ofDigitChars_eq_ofDigitChars_zero, Nat.mul_comm]

theorem ofDigits_zeros (n : Nat) : ofDigits (Decimal.zeros n) = 0 :=
  Nat.ofDigitChars_replicate_zero

theorem ofDigits_zeros_append (n : Nat) (ds : List Char) :
    ofDigits (Decimal.zeros n ++ ds) = ofDigits ds := by
  rw [ofDigits_append, ofDigits_zeros, Nat.zero_mul, Nat.zero_add]

theorem ofDigits_append_zeros (ds : List Char) (n : Nat) :
    ofDigits (ds ++ Decimal.zeros n) = ofDigits ds * 10 ^ n := by
  rw [ofDigits_append, ofDigits_zeros, Nat.add_zero, Decimal.zeros, List.length_replicate]

namespace Decimal

theorem isDigits_zeros (n : Nat) : IsDigits (zeros n) := by
  intro c hc
  obtain rfl := List.eq_of_mem_replicate hc
  decide

theorem exists_zeros (ds : List Char) : ∃ n, ds = dropTrailingZeros ds ++ zeros n := by
  refine ⟨(ds.reverse.takeWhile (· == '0')).length, ?_⟩
  have hz : ds.reverse.takeWhile (· == '0') =
      List.replicate (ds.reverse.takeWhile (· == '0')).length '0' := by
    refine List.eq_replicate_of_mem fun c hc => ?_
    exact beq_iff_eq.1 (List.all_eq_true.1 List.all_takeWhile c hc)
  have h := congrArg List.reverse (List.takeWhile_append_dropWhile (p := (· == '0')) (l := ds.reverse))
  rw [hz, List.reverse_append, List.reverse_replicate, List.reverse_reverse] at h
  exact h.symm

/-! ### What is written -/

/-- The exponent that digits stand for, with or without a sign. -/
def exponentOf : List Char → Int
  | '-' :: ds => -(ofDigits ds : Int)
  | '+' :: ds => ofDigits ds
  | ds => ofDigits ds

/-- The decimal that digits stand for, with or without a point among them and an exponent behind
them. -/
def denoted? (cs : List Char) : Option Decimal := do
  let d ← read? (cs.takeWhile (· != 'e'))
  match cs.dropWhile (· != 'e') with
  | [] => return d
  | _ :: es => return { d with exponent := d.exponent + exponentOf es }

variable {ds whole fraction : List Char}

theorem ne_of_isDigit {c d : Char} (h : c.isDigit = true) (hd : d.isDigit = false) :
    (c != d) = true := by
  rw [bne_iff_ne]
  rintro rfl
  rw [hd] at h
  exact nomatch h

theorem takeWhile_of_forall {p : Char → Bool} {cs : List Char} (h : ∀ c ∈ cs, p c = true) (d : Char)
    (rest : List Char) (hd : p d = false) :
    (cs ++ d :: rest).takeWhile p = cs ∧ (cs ++ d :: rest).dropWhile p = d :: rest := by
  rw [List.takeWhile_append_of_pos h, List.dropWhile_append_of_pos h]
  simp [hd]

theorem read_digits (h : IsDigits ds) (hne : ds ≠ []) : read? ds = some ⟨ofDigits ds, 0⟩ := by
  have hp : ∀ c ∈ ds, (c != '.') = true := fun c hc => ne_of_isDigit (h c hc) rfl
  have ht : ds.takeWhile (· != '.') = ds := List.takeWhile_eq_self_iff.2 hp
  have hd : ds.dropWhile (· != '.') = [] := List.dropWhile_eq_nil_iff.2 hp
  simp only [read?, ht, hd, List.drop_nil, List.append_nil]
  exact if_pos ⟨hne, List.all_eq_true.2 h⟩

theorem read_point (hw : IsDigits whole) (hf : IsDigits fraction) (hne : whole ++ fraction ≠ []) :
    read? (whole ++ '.' :: fraction) =
      some ⟨ofDigits (whole ++ fraction), -(fraction.length : Int)⟩ := by
  have hp : ∀ c ∈ whole, (c != '.') = true := fun c hc => ne_of_isDigit (hw c hc) rfl
  obtain ⟨ht, hd⟩ := takeWhile_of_forall hp '.' fraction rfl
  simp only [read?, ht, hd, List.drop_succ_cons, List.drop_zero]
  exact if_pos ⟨hne, List.all_eq_true.2 (List.forall_mem_append.2 ⟨hw, hf⟩)⟩

theorem read_positional (wholePlace : Bool) (h : IsDigits ds) (hne : ds ≠ []) (e : Int) :
    ∃ d, read? (positional wholePlace ds (ds.length + e)) = some d ∧
      d.value = ofDigits ds * 10 ^ e := by
  unfold positional
  split
  next hp =>
    have hf : IsDigits (zeros (-(ds.length + e)).toNat ++ ds) :=
      List.forall_mem_append.2 ⟨isDigits_zeros _, h⟩
    have hz : ofDigits (['0'] ++ (zeros (-(ds.length + e)).toNat ++ ds)) = ofDigits ds :=
      (ofDigits_zeros_append 1 _).trans (ofDigits_zeros_append _ _)
    have he : -((zeros (-(ds.length + e)).toNat ++ ds).length : Int) = e := by
      rw [List.length_append, zeros, List.length_replicate]
      omega
    have hr := read_point (isDigits_zeros 1) hf (List.cons_ne_nil '0' _)
    change read? (['0'] ++ _) = some ⟨ofDigits (['0'] ++ _), _⟩ at hr
    rw [hz, he] at hr
    exact ⟨_, hr, rfl⟩
  next hp =>
    simp only
    split
    next hn =>
      have hd : ds.take (ds.length + e).toNat ++ ds.drop (ds.length + e).toNat = ds :=
        List.take_append_drop _ _
      have he : -((ds.drop (ds.length + e).toNat).length : Int) = e := by
        rw [List.length_drop]
        omega
      have hr := read_point (fun c hc => h c (List.mem_of_mem_take hc))
        (fun c hc => h c (List.mem_of_mem_drop hc)) (hd.symm ▸ hne)
      rw [hd, he] at hr
      exact ⟨_, hr, rfl⟩
    next hn =>
      obtain ⟨m, rfl⟩ : ∃ m : Nat, e = m := ⟨e.toNat, by omega⟩
      have hm : (ds.length + (m : Int)).toNat - ds.length = m := by omega
      have hz : IsDigits (ds ++ zeros m) := List.forall_mem_append.2 ⟨h, isDigits_zeros m⟩
      have hne' : ds ++ zeros m ≠ [] := List.append_ne_nil_of_left_ne_nil hne _
      rw [hm]
      cases wholePlace with
      | true =>
        have hf : ofDigits (ds ++ zeros m ++ ['0']) = ofDigits ds * 10 ^ (m + 1) := by
          rw [← ofDigits_append_zeros, List.append_assoc]
          exact congrArg (fun cs => ofDigits (ds ++ cs)) List.replicate_succ'.symm
        refine ⟨_, read_point hz (isDigits_zeros 1) (List.append_ne_nil_of_left_ne_nil hne' _), ?_⟩
        rw [value, hf]
        simp [pow_succ, mul_assoc]
      | false =>
        have hr : read? (ds ++ zeros m ++ []) = some ⟨ofDigits (ds ++ zeros m), 0⟩ := by
          rw [List.append_nil]
          exact read_digits hz hne'
        refine ⟨_, hr, ?_⟩
        rw [value, ofDigits_append_zeros]
        simp

theorem exponentOf_digits (h : IsDigits ds) : exponentOf ds = ofDigits ds := by
  unfold exponentOf
  split
  next => exact absurd (h '-' List.mem_cons_self) (by decide)
  next => exact absurd (h '+' List.mem_cons_self) (by decide)
  next => rfl

theorem exponentOf_write (exponentSign : Bool) (n : Int) :
    exponentOf ((if n < 0 then ['-'] else if exponentSign then ['+'] else []) ++
      n.natAbs.repr.toList) = n := by
  have hd : ofDigits n.natAbs.repr.toList = n.natAbs := by
    rw [Nat.toList_repr, ofDigits_toDigits]
  split
  next hn =>
    change -(ofDigits n.natAbs.repr.toList : Int) = n
    omega
  next hn =>
    have he : exponentOf n.natAbs.repr.toList = ofDigits n.natAbs.repr.toList :=
      exponentOf_digits (Nat.toList_repr ▸ isDigits_toDigits _)
    cases exponentSign with
    | true =>
      change (ofDigits n.natAbs.repr.toList : Int) = n
      omega
    | false =>
      change exponentOf n.natAbs.repr.toList = n
      omega

def mantissa (ds : List Char) : List Char :=
  match ds with
  | [] => []
  | [d] => [d]
  | d :: ds => d :: '.' :: ds

theorem read_mantissa (h : IsDigits ds) (hne : ds ≠ []) :
    read? (mantissa ds) = some ⟨ofDigits ds, 1 - (ds.length : Int)⟩ := by
  match ds, h, hne with
  | [d], h, hne => exact read_digits h hne
  | d :: d' :: ds, h, hne =>
    rw [IsDigits, List.forall_mem_cons] at h
    have hr := read_point (List.forall_mem_singleton.2 h.1) h.2 (List.cons_ne_nil d _)
    have he : -((d' :: ds).length : Int) = 1 - ((d :: d' :: ds).length : Int) := by
      simp only [List.length_cons]
      omega
    rw [he] at hr
    exact hr

theorem forall_mantissa {p : Char → Prop} (h : ∀ c, c.isDigit = true → p c) (hp : p '.')
    (hd : IsDigits ds) : ∀ c ∈ mantissa ds, p c := by
  match ds, hd with
  | [], _ => exact nofun
  | [d], hd => exact List.forall_mem_singleton.2 (h d (hd d List.mem_cons_self))
  | d :: d' :: ds, hd =>
    simp only [mantissa, List.forall_mem_cons]
    exact ⟨h d (hd d (by simp)), hp, h d' (hd d' (by simp)), fun c hc => h c (hd c (by simp [hc]))⟩

theorem scientific_eq (exponentSign : Bool) (ds : List Char) (n : Int) :
    scientific exponentSign ds n = mantissa ds ++ 'e' ::
      ((if n < 0 then ['-'] else if exponentSign then ['+'] else []) ++ n.natAbs.repr.toList) := by
  simp only [scientific, List.append_assoc, List.cons_append]
  rfl

theorem denoted_scientific (exponentSign : Bool) (h : IsDigits ds) (hne : ds ≠ []) (e : Int) :
    ∃ d, denoted? (scientific exponentSign ds (ds.length + e - 1)) = some d ∧
      d.value = ofDigits ds * 10 ^ e := by
  have hm : ∀ c ∈ mantissa ds, (c != 'e') = true :=
    forall_mantissa (fun c hc => ne_of_isDigit hc rfl) rfl h
  obtain ⟨ht, hd⟩ := takeWhile_of_forall hm 'e'
    ((if ds.length + e - 1 < 0 then ['-'] else if exponentSign then ['+'] else []) ++
        (ds.length + e - 1).natAbs.repr.toList) rfl
  have he : 1 - (ds.length : Int) + (ds.length + e - 1) = e := by omega
  refine ⟨⟨ofDigits ds, e⟩, ?_, rfl⟩
  rw [denoted?, scientific_eq, ht, hd, read_mantissa h hne]
  simp only [Option.bind_eq_bind, Option.bind_some, exponentOf_write, he]
  rfl

/-- The digits of a number without the zeros at their end. -/
theorem exists_significant {n : Nat} (h : 0 < n) :
    ∃ k, Nat.toDigits 10 n = dropTrailingZeros (Nat.toDigits 10 n) ++ zeros k ∧
      IsDigits (dropTrailingZeros (Nat.toDigits 10 n)) ∧
      dropTrailingZeros (Nat.toDigits 10 n) ≠ [] ∧
      n = ofDigits (dropTrailingZeros (Nat.toDigits 10 n)) * 10 ^ k := by
  obtain ⟨k, hk⟩ := exists_zeros (Nat.toDigits 10 n)
  have hn : n = ofDigits (dropTrailingZeros (Nat.toDigits 10 n)) * 10 ^ k := by
    rw [← ofDigits_append_zeros, ← hk, ofDigits_toDigits]
  refine ⟨k, hk, fun c hc => ?_, fun hnil => ?_, hn⟩
  · refine isDigits_toDigits n c ?_
    rw [hk]
    exact List.mem_append_left _ hc
  · rw [hnil] at hn
    simp only [ofDigits, List.foldl_nil, Nat.zero_mul] at hn
    omega

/-- How a decimal is written: its digits without the zeros at their end, in positional notation or
with an exponent. -/
theorem write_eq (layout : DecimalLayout) (d : Decimal) :
    ∃ ds e, IsDigits ds ∧ ds ≠ [] ∧ d.value = ofDigits ds * 10 ^ (e : Int) ∧
      (d.write layout = positional layout.wholePlace ds (ds.length + e) ∨
        layout.positional (ds.length + e - 1) = false ∧
          d.write layout = scientific layout.exponentSign ds (ds.length + e - 1)) := by
  obtain ⟨significand, exponent⟩ := d
  rcases Nat.eq_zero_or_pos significand with rfl | hpos
  · refine ⟨['0'], 0, isDigits_zeros 1, List.cons_ne_nil _ _, ?_, .inl ?_⟩
    · simp [value, ofDigits]
    · cases hw : layout.wholePlace <;> simp [write, digits, positional, zeros, hw]
  · obtain ⟨k, hk, hd, hne, hsig⟩ := exists_significant hpos
    obtain ⟨ds, hds⟩ : ∃ ds, ds = dropTrailingZeros (Nat.toDigits 10 significand) := ⟨_, rfl⟩
    rw [← hds] at hk hd hne hsig
    have hlen : ((Nat.toDigits 10 significand).length : Int) + exponent =
        ds.length + (k + exponent) := by
      rw [hk, List.length_append, zeros, List.length_replicate]
      omega
    have hdigits : digits significand = Nat.toDigits 10 significand := by
      rw [digits, if_neg (Nat.ne_of_gt hpos), Nat.toList_repr]
    have hwrite : write layout ⟨significand, exponent⟩ =
        if layout.positional (ds.length + (k + exponent) - 1) then
          positional layout.wholePlace ds (ds.length + (k + exponent))
        else scientific layout.exponentSign ds (ds.length + (k + exponent) - 1) := by
      simp only [write, hdigits]
      split
      next h => exact absurd h Nat.toDigits_ne_nil
      next => rw [hlen, hds]
    refine ⟨ds, k + exponent, hd, hne, ?_, ?_⟩
    · simp only [value]
      rw [zpow_add₀ (by norm_num), zpow_natCast, ← mul_assoc]
      exact_mod_cast congrArg (fun n : Nat => (n : ℚ) * 10 ^ exponent) hsig
    · rw [hwrite]
      split
      · exact .inl rfl
      next hpos => exact .inr ⟨Bool.eq_false_of_not_eq_true hpos, rfl⟩

/-! ### The characters of what is written -/

theorem forall_positional {p : Char → Prop} (wholePlace : Bool) (h : ∀ c, c.isDigit = true → p c)
    (hp : p '.') (hd : IsDigits ds) (place : Int) : ∀ c ∈ positional wholePlace ds place, p c := by
  have hds : ∀ c ∈ ds, p c := fun c hc => h c (hd c hc)
  have hz : ∀ n, ∀ c ∈ zeros n, p c := fun n c hc => h c (isDigits_zeros n c hc)
  have h0 : p '0' := h '0' rfl
  unfold positional
  split
  · simp only [List.cons_append, List.forall_mem_cons, List.forall_mem_append]
    exact ⟨h0, hp, hz _, hds⟩
  · simp only
    split
    · rw [List.forall_mem_append, List.forall_mem_cons]
      exact ⟨fun c hc => hds c (List.mem_of_mem_take hc), hp,
        fun c hc => hds c (List.mem_of_mem_drop hc)⟩
    · rw [List.forall_mem_append, List.forall_mem_append]
      refine ⟨⟨hds, hz _⟩, ?_⟩
      split
      · simp [hp, h0]
      · simp

theorem value_denoted_write (layout : DecimalLayout) (d : Decimal) :
    ∃ d', denoted? (d.write layout) = some d' ∧ d'.value = d.value := by
  obtain ⟨ds, e, hds, hne, hv, hw | ⟨-, hw⟩⟩ := write_eq layout d
  · obtain ⟨d', hr, hd'⟩ := read_positional layout.wholePlace hds hne e
    have hp : ∀ c ∈ positional layout.wholePlace ds (ds.length + e), (c != 'e') = true :=
      forall_positional layout.wholePlace (fun c hc => ne_of_isDigit hc rfl) rfl hds _
    have ht := List.takeWhile_eq_self_iff.2 hp
    have hdrop := List.dropWhile_eq_nil_iff.2 hp
    refine ⟨d', ?_, hd'.trans hv.symm⟩
    rw [hw, denoted?, ht, hdrop, hr]
    rfl
  · obtain ⟨d', hr, hd'⟩ := denoted_scientific layout.exponentSign hds hne e
    exact ⟨d', hw ▸ hr, hd'.trans hv.symm⟩

theorem value_eq_of_write_eq {layout : DecimalLayout} {d d' : Decimal}
    (h : d.write layout = d'.write layout) : d.value = d'.value := by
  obtain ⟨c, hc, hcv⟩ := value_denoted_write layout d
  obtain ⟨c', hc', hcv'⟩ := value_denoted_write layout d'
  rw [h, hc'] at hc
  rw [← hcv, ← hcv', Option.some.inj hc]

theorem forall_write {p : Char → Prop} (layout : DecimalLayout) (h : ∀ c, c.isDigit = true → p c)
    (hp : p '.') (he : p 'e') (hplus : p '+') (hminus : p '-') (d : Decimal) :
    ∀ c ∈ d.write layout, p c := by
  obtain ⟨ds, e, hds, -, -, hw | ⟨-, hw⟩⟩ := write_eq layout d
  · rw [hw]
    exact forall_positional layout.wholePlace h hp hds _
  · rw [hw, scientific_eq]
    simp only [List.forall_mem_append, List.forall_mem_cons]
    refine ⟨forall_mantissa h hp hds, he, ?_, fun c hc => h c ?_⟩
    · split
      · exact List.forall_mem_singleton.2 hminus
      · split
        · exact List.forall_mem_singleton.2 hplus
        · exact nofun
    · rw [Nat.toList_repr] at hc
      exact isDigits_toDigits _ c hc

theorem forall_write_of_positional {p : Char → Prop} {layout : DecimalLayout}
    (hl : ∀ e, layout.positional e = true) (h : ∀ c, c.isDigit = true → p c) (hp : p '.')
    (d : Decimal) : ∀ c ∈ d.write layout, p c := by
  obtain ⟨ds, e, hds, -, -, hw | ⟨he, -⟩⟩ := write_eq layout d
  · rw [hw]
    exact forall_positional layout.wholePlace h hp hds _
  · rw [hl] at he
    cases he

theorem exists_write_eq_cons (layout : DecimalLayout) (d : Decimal) :
    ∃ c cs, d.write layout = c :: cs ∧ c.isDigit = true := by
  obtain ⟨ds, e, hds, hne, -, hw⟩ := write_eq layout d
  obtain ⟨c, cs, rfl⟩ := List.exists_cons_of_ne_nil hne
  have hc := hds c List.mem_cons_self
  rcases hw with hw | ⟨-, hw⟩
  · rw [hw]
    unfold positional
    split
    · exact ⟨'0', _, rfl, rfl⟩
    next hp =>
      simp only
      split
      · obtain ⟨n, hn⟩ : ∃ n, ((c :: cs).length + e).toNat = n + 1 :=
          ⟨((c :: cs).length + e).toNat - 1, by omega⟩
        rw [hn]
        exact ⟨c, _, rfl, hc⟩
      · exact ⟨c, _, rfl, hc⟩
  · rw [hw, scientific_eq]
    cases cs with
    | nil => exact ⟨c, _, rfl, hc⟩
    | cons => exact ⟨c, _, rfl, hc⟩

theorem exists_mem_write {layout : DecimalLayout} (h : layout.wholePlace = true) (d : Decimal) :
    ∃ c ∈ d.write layout, c.isDigit = false := by
  obtain ⟨ds, e, -, -, -, hw | ⟨-, hw⟩⟩ := write_eq layout d
  · refine ⟨'.', ?_, rfl⟩
    rw [hw, h]
    unfold positional
    split
    · simp
    · simp only
      split
      · simp
      · simp
  · refine ⟨'e', ?_, rfl⟩
    rw [hw, scientific_eq]
    simp

end Decimal

end FlatScript
