import FlatScript.Number.Single
import FlatScript.Proofs.Decimal

namespace FlatScript.Single

open FlatScript.BinaryFormat (binary32)

variable {x y : Float32}

theorem eq_of_toBits_eq (h : x.toBits = y.toBits) : x = y := by
  obtain ⟨⟨b, hb⟩⟩ := x
  obtain ⟨⟨c, hc⟩⟩ := y
  obtain rfl : b = c := h
  rfl

theorem eq_of_magnitude_eq (hm : magnitude x = magnitude y) (hs : isNegative x = isNegative y) :
    x = y := by
  have hx := x.toBits.toNat_lt
  have hy := y.toBits.toNat_lt
  have h31 : Nat.pow 2 31 = 2147483648 := rfl
  refine eq_of_toBits_eq (UInt32.toNat_inj.1 ?_)
  simp only [magnitude, isNegative, decide_eq_decide, h31] at hm hs
  omega

/-- All that is no number has the same bits. -/
theorem toBits_of_infinity_lt (h : binary32.infinity < magnitude x) :
    x.toBits.toBitVec = Float.Model.UnpackedFloat.packedNaN .binary32 := by
  have hinf : binary32.infinity = 2139095040 := rfl
  have h31 : Nat.pow 2 31 = 2147483648 := rfl
  have hx : x.toBits = x.toModel.toBits := rfl
  rw [hinf, magnitude, h31, hx] at h
  have hexponent : (@Float.Model.UnpackedFloat.unpackExponent .binary32
      x.toModel.toBits.toBitVec).toNat = x.toModel.toBits.toNat / 8388608 % 256 := by
    simp [Float.Model.UnpackedFloat.unpackExponent, Nat.shiftRight_eq_div_pow]
  have hmantissa : (@Float.Model.UnpackedFloat.unpackMantissa .binary32
      x.toModel.toBits.toBitVec).toNat = x.toModel.toBits.toNat % 8388608 := by
    simp [Float.Model.UnpackedFloat.unpackMantissa]
  refine x.toModel.valid.eq_packedNaN (BitVec.eq_of_toNat_eq ?_) fun hm => ?_
  · rw [hexponent]
    change _ = 255
    omega
  · rw [hm] at hmantissa
    change 0 = _ at hmantissa
    omega

/-- What is written for a magnitude that may be infinite. -/
def magnitudeText (layout : DecimalLayout) (i : Nat) : List Char :=
  if i = binary32.infinity then ['i', 'n', 'f'] else (binary32.shortest .up i).write layout

theorem exists_magnitudeText_eq_cons (layout : DecimalLayout) (i : Nat) :
    ∃ c cs, magnitudeText layout i = c :: cs ∧ (c.isDigit = true ∨ c = 'i') := by
  unfold magnitudeText
  split
  · exact ⟨'i', _, rfl, .inr rfl⟩
  · obtain ⟨c, cs, hw, hc⟩ := (binary32.shortest .up i).exists_write_eq_cons layout
    exact ⟨c, cs, hw, .inl hc⟩

theorem eq_of_magnitudeText_eq {layout : DecimalLayout} {i j : Nat} (hi : i ≤ binary32.infinity)
    (hj : j ≤ binary32.infinity) (h : magnitudeText layout i = magnitudeText layout j) : i = j := by
  have hne : ∀ k, (binary32.shortest .up k).write layout ≠ ['i', 'n', 'f'] := by
    intro k hk
    obtain ⟨c, cs, hw, hc⟩ := (binary32.shortest .up k).exists_write_eq_cons layout
    obtain ⟨rfl, -⟩ := List.cons.inj (hk.symm.trans hw)
    exact absurd hc (by decide)
  unfold magnitudeText at h
  split at h <;> split at h
  next hi hj => rw [hi, hj]
  next => exact absurd h.symm (hne j)
  next => exact absurd h (hne i)
  next =>
    have hp : 0 < binary32.precision := by decide
    rw [← BinaryFormat.ofDecimal_shortest hp hi .up, ← BinaryFormat.ofDecimal_shortest hp hj .up]
    exact BinaryFormat.ofDecimal_eq_of_value_eq (Decimal.value_eq_of_write_eq h)

def signText (x : Float32) : List Char := if isNegative x then ['-'] else []

/-- What is written for a number, where `Finite` tells what for a finite magnitude. -/
inductive Shows (Finite : Nat → List Char → Prop) (x : Float32) : List Char → Prop
  | nan (h : binary32.infinity < magnitude x) : Shows Finite x ['N', 'a', 'N']
  | infinite (h : magnitude x = binary32.infinity) : Shows Finite x (signText x ++ ['i', 'n', 'f'])
  | finite {cs : List Char} (h : magnitude x < binary32.infinity) (hc : Finite (magnitude x) cs) :
      Shows Finite x (signText x ++ cs)

theorem shows_writeWith {Finite : Nat → List Char → Prop} {write : Nat → List Char}
    (h : ∀ i < binary32.infinity, Finite i (write i)) (x : Float32) :
    Shows Finite x (writeWith write x).toList := by
  unfold writeWith
  rcases Nat.lt_trichotomy (magnitude x) binary32.infinity with hx | hx | hx
  · simp only [if_neg (Nat.not_lt_of_lt hx), if_neg (Nat.ne_of_lt hx), String.toList_ofList]
    exact .finite hx (h _ hx)
  · simp only [hx, if_neg (Nat.lt_irrefl _), if_pos, String.toList_ofList]
    exact .infinite hx
  · simp only [if_pos hx]
    exact .nan hx

theorem toList_write (layout : DecimalLayout) (x : Float32) :
    (write layout x).toList =
      if binary32.infinity < magnitude x then ['N', 'a', 'N']
      else signText x ++ magnitudeText layout (magnitude x) := by
  simp only [write, writeWith]
  split
  · rfl
  · rw [String.toList_ofList]
    rfl

/-- Digits and at most a point, which denote a decimal that is rounded to the magnitude. -/
def ReadsBack (i : Nat) (cs : List Char) : Prop :=
  (∀ c ∈ cs, c.isDigit = true ∨ c = '.') ∧
    ∃ d, Decimal.denoted? cs = some d ∧ binary32.ofDecimal d = i

theorem shows_write_plain (x : Float32) : Shows ReadsBack x (write .plain x).toList := by
  refine shows_writeWith (fun i hi => ⟨?_, ?_⟩) x
  · exact Decimal.forall_write_of_positional (fun _ => rfl) (fun _ => .inl) (.inr rfl) _
  · obtain ⟨d, hd, hv⟩ := (binary32.shortest .up i).value_denoted_write .plain
    refine ⟨d, hd, ?_⟩
    rw [BinaryFormat.ofDecimal_eq_of_value_eq hv,
      BinaryFormat.ofDecimal_shortest (by decide) (Nat.le_of_lt hi)]

theorem eq_of_signed_eq {layout : DecimalLayout} {i j : Nat}
    (h : signText x ++ magnitudeText layout i = signText y ++ magnitudeText layout j) :
    isNegative x = isNegative y ∧ magnitudeText layout i = magnitudeText layout j := by
  obtain ⟨c, cs, hi, hc⟩ := exists_magnitudeText_eq_cons layout i
  obtain ⟨d, ds, hj, hd⟩ := exists_magnitudeText_eq_cons layout j
  have hne : ∀ b : Char, b.isDigit = true ∨ b = 'i' → b ≠ '-' := by
    rintro b hb rfl
    exact absurd hb (by decide)
  rw [hi, hj] at h ⊢
  unfold signText at h
  cases hx : isNegative x <;> cases hy : isNegative y <;> simp only [hx, hy] at h
  · exact ⟨rfl, h⟩
  · exact absurd (List.cons.inj h).1 (hne c hc)
  · exact absurd (List.cons.inj h).1.symm (hne d hd)
  · exact ⟨rfl, (List.cons.inj h).2⟩

theorem exists_write_eq_cons (layout : DecimalLayout) (x : Float32) :
    ∃ c cs, (write layout x).toList = c :: cs ∧ (c.isDigit = true ∨ c ∈ ['i', '-', 'N']) := by
  rw [toList_write]
  split
  · exact ⟨'N', _, rfl, .inr (by simp)⟩
  · obtain ⟨c, cs, hw, hc⟩ := exists_magnitudeText_eq_cons layout (magnitude x)
    unfold signText
    split
    · exact ⟨'-', _, rfl, .inr (by simp)⟩
    · exact ⟨c, cs, hw, hc.imp_right (by rintro rfl; simp)⟩

theorem newline_not_mem_write (layout : DecimalLayout) (x : Float32) :
    '\n' ∉ (write layout x).toList := by
  have hm : '\n' ∉ magnitudeText layout (magnitude x) := by
    unfold magnitudeText
    split
    · decide
    · intro h
      have hne := Decimal.forall_write (p := fun c => c ≠ '\n') layout
        (by rintro _ h rfl; exact absurd h (by decide)) (by decide) (by decide) (by decide)
        (by decide) _ _ h
      exact hne rfl
  rw [toList_write]
  split
  · decide
  · unfold signText
    split
    · simpa using hm
    · exact hm

theorem exists_mem_write_outline (x : Float32) :
    ∃ c ∈ (write .outline x).toList, c.isDigit = false := by
  rw [toList_write]
  split
  · exact ⟨'N', by simp, rfl⟩
  · have hm : ∃ c ∈ magnitudeText .outline (magnitude x), c.isDigit = false := by
      unfold magnitudeText
      split
      · exact ⟨'i', by simp, rfl⟩
      · exact Decimal.exists_mem_write rfl _
    obtain ⟨c, hc, hd⟩ := hm
    exact ⟨c, List.mem_append_right _ hc, hd⟩

theorem write_injective (layout : DecimalLayout) : Function.Injective (write layout) := by
  intro x y h
  replace h := congrArg String.toList h
  rw [toList_write, toList_write] at h
  have hN : ∀ z i, signText z ++ magnitudeText layout i ≠ ['N', 'a', 'N'] := by
    intro z i hz
    obtain ⟨c, cs, hi, hc⟩ := exists_magnitudeText_eq_cons layout i
    rw [hi] at hz
    unfold signText at hz
    split at hz
    · exact absurd (List.cons.inj hz).1 (by decide)
    · obtain ⟨rfl, -⟩ := List.cons.inj hz
      exact absurd hc (by decide)
  split at h <;> split at h
  next hx hy =>
    refine eq_of_toBits_eq (UInt32.toBitVec_inj.1 ?_)
    rw [toBits_of_infinity_lt hx, toBits_of_infinity_lt hy]
  next => exact absurd h.symm (hN _ _)
  next => exact absurd h (hN _ _)
  next hx hy =>
    obtain ⟨hs, hm⟩ := eq_of_signed_eq h
    exact eq_of_magnitude_eq (eq_of_magnitudeText_eq (Nat.le_of_not_lt hx) (Nat.le_of_not_lt hy) hm) hs

end FlatScript.Single
