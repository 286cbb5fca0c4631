import FlatScript.Number.Reading
import FlatScript.Proofs.Lexeme

namespace FlatScript

theorem isDigits_toDigits (n : Nat) : IsDigits (Nat.toDigits 10 n) :=
  fun _ hc => Nat.isDigit_of_mem_toDigits (by decide) (by decide) hc

theorem head_toDigits_of_pos {n : Nat} (hn : 0 < n) : (Nat.toDigits 10 n).head? ≠ some '0' := by
  induction n using Nat.strongRecOn with
  | ind n ih =>
    rw [Nat.toDigits_eq_if (by decide)]
    split
    next => simpa using Nat.ne_of_gt hn
    next hlt =>
      have hd := ih (n / 10) (by omega) (by omega)
      rwa [List.head?_append, Option.or_of_isSome (by simp)]

theorem isWhole_toDigits (n : Nat) : IsWhole (Nat.toDigits 10 n) := by
  refine ⟨Nat.toDigits_ne_nil, isDigits_toDigits n, fun hh => ?_⟩
  cases n with
  | zero => rfl
  | succ n => exact absurd hh (head_toDigits_of_pos (Nat.succ_pos n))

theorem ofDigits_toDigits (n : Nat) : ofDigits (Nat.toDigits 10 n) = n :=
  Nat.ofDigitChars_ten_toDigits

theorem digitChar_of_isDigit {d : Char} (h : d.isDigit = true) :
    d.toNat - '0'.toNat < 10 ∧ (d.toNat - '0'.toNat).digitChar = d := by
  obtain ⟨hl, hu⟩ := Char.isDigit_iff_toNat.1 h
  have h0 : '0'.toNat = 48 := rfl
  have h9 : '9'.toNat = 57 := rfl
  have hlt : d.toNat - '0'.toNat < 10 := by omega
  refine ⟨hlt, Char.toNat_inj.1 ?_⟩
  rw [Nat.toNat_digitChar_of_lt_ten hlt]
  omega

theorem toDigits_foldl {n : Nat} {ds : List Char} (hn : 0 < n) (hd : IsDigits ds) :
    Nat.toDigits 10 (ds.foldl (fun n d => 10 * n + (d.toNat - '0'.toNat)) n) =
      Nat.toDigits 10 n ++ ds := by
  induction ds generalizing n with
  | nil => simp
  | cons d ds ih =>
    obtain ⟨hlt, hc⟩ := digitChar_of_isDigit (hd d (by simp))
    have h := Nat.toDigits_append_toDigits (by decide) hn hlt
    rw [Nat.toDigits_of_lt_base hlt, hc] at h
    rw [List.foldl_cons, ih (by omega) fun c hc => hd c (by simp [hc]), ← h]
    simp

theorem toDigits_ofDigits {cs : List Char} (h : IsWhole cs) :
    Nat.toDigits 10 (ofDigits cs) = cs := by
  obtain ⟨hne, hd, hz⟩ := h
  cases cs with
  | nil => exact absurd rfl hne
  | cons c cs =>
    obtain ⟨hlt, hc⟩ := digitChar_of_isDigit (hd c (by simp))
    by_cases h0 : c = '0'
    · subst h0
      rw [hz rfl]
      rfl
    · have hpos : 0 < c.toNat - '0'.toNat := by
        rw [Nat.pos_iff_ne_zero]
        intro hzero
        rw [hzero] at hc
        exact h0 hc.symm
      have hds : IsDigits cs := fun d hm => hd d (by simp [hm])
      have h := toDigits_foldl hpos hds
      rw [Nat.toDigits_of_lt_base hlt, hc] at h
      rw [ofDigits, List.foldl_cons, Nat.mul_zero, Nat.zero_add]
      exact h

theorem readNat_of_isWhole {cs : List Char} (h : IsWhole cs) : readNat? cs = some (ofDigits cs) :=
  if_pos ⟨h.1, List.all_eq_true.2 h.2.1⟩

theorem readInt64_toDigits {n : Nat} (h : n < Nat.pow 2 63) :
    readInt64? (Nat.toDigits 10 n) = some (.ofNat n) := by
  rw [readInt64?, readNat_of_isWhole (isWhole_toDigits n), ofDigits_toDigits]
  exact if_pos h

theorem repr_of_readInt64 {text : String} {x : Int64} (h : IsWhole text.toList)
    (hx : readInt64? text.toList = some x) : ∃ n < Nat.pow 2 63, text = n.repr ∧ x = .ofNat n := by
  simp only [readInt64?, readNat_of_isWhole h, Option.ite_none_right_eq_some] at hx
  obtain ⟨hlt, hx⟩ := hx
  refine ⟨_, hlt, ?_, (Option.some.inj hx).symm⟩
  rw [← String.toList_inj, Nat.toList_repr, toDigits_ofDigits h]

end FlatScript
