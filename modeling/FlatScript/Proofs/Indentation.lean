import Mathlib.Data.List.Basic

namespace FlatScript

inductive Indented
  | node (label : List Char) (parts : List Indented)

namespace Indented

def line (depth : Nat) (label : List Char) : List Char :=
  List.replicate depth '\t' ++ label ++ ['\n']

mutual

def text (depth : Nat) : Indented → List Char
  | .node label parts => line depth label ++ textAll (depth + 1) parts

def textAll (depth : Nat) : List Indented → List Char
  | [] => []
  | t :: ts => t.text depth ++ textAll depth ts

end

/-- A label of one line that does not look as if it was indented or quoted. -/
def IsPlain : List Char → Prop
  | [] => False
  | c :: cs => c ≠ '\t' ∧ c ≠ '"' ∧ '\n' ∉ c :: cs

instance : DecidablePred IsPlain
  | [] => inferInstanceAs (Decidable False)
  | _ :: _ => inferInstanceAs (Decidable (_ ∧ _ ∧ _))

theorem IsPlain.append {l r : List Char} (h : IsPlain l) (hr : '\n' ∉ r) : IsPlain (l ++ r) := by
  cases l with
  | nil => exact h.elim
  | cons c cs => exact ⟨h.1, h.2.1, List.not_mem_append h.2.2 hr⟩

theorem IsPlain.newline_not_mem {l : List Char} (h : IsPlain l) : '\n' ∉ l := by
  cases l with
  | nil => exact h.elim
  | cons c cs => exact h.2.2

theorem IsPlain.ne_quoted {l r s : List Char} (h : IsPlain l) : l ++ r ≠ '"' :: s := by
  cases l with
  | nil => exact h.elim
  | cons c cs => exact fun hq => h.2.1 (List.cons.inj hq).1

/-- A label that shows where it ends: behind the second quote, or else with the line. -/
inductive IsLabel : List Char → Prop
  | quoted {s : List Char} (h : '"' ∉ s) : IsLabel ('"' :: s ++ ['"'])
  | plain {l : List Char} (h : IsPlain l) : IsLabel l

theorem IsLabel.exists_eq_cons {l : List Char} (h : IsLabel l) : ∃ c s, l = c :: s ∧ c ≠ '\t' := by
  cases h with
  | quoted => exact ⟨'"', _, rfl, by decide⟩
  | plain h =>
    cases l with
    | nil => exact h.elim
    | cons c cs => exact ⟨c, cs, rfl, h.1⟩

theorem cancel_of_not_mem {a : Char} {l l' r r' : List Char} (hl : a ∉ l) (hl' : a ∉ l')
    (h : l ++ a :: r = l' ++ a :: r') : l = l' ∧ r = r' := by
  induction l generalizing l' with
  | nil =>
    cases l' with
    | nil => exact ⟨rfl, (List.cons.inj h).2⟩
    | cons b l' => exact absurd ((List.cons.inj h).1 ▸ List.mem_cons_self) hl'
  | cons b l ih =>
    cases l' with
    | nil => exact absurd ((List.cons.inj h).1 ▸ List.mem_cons_self) hl
    | cons c l' =>
      obtain ⟨rfl, ht⟩ := List.cons.inj h
      obtain ⟨rfl, hr⟩ := ih (List.not_mem_of_not_mem_cons hl) (List.not_mem_of_not_mem_cons hl') ht
      exact ⟨rfl, hr⟩

theorem IsLabel.cancel {l l' r r' : List Char} (hl : IsLabel l) (hl' : IsLabel l')
    (h : l ++ '\n' :: r = l' ++ '\n' :: r') : l = l' ∧ r = r' := by
  cases hl with
  | @quoted s hs =>
    cases hl' with
    | @quoted s' hs' =>
      have h : s ++ '"' :: '\n' :: r = s' ++ '"' :: '\n' :: r' := by simpa using h
      obtain ⟨rfl, hr⟩ := cancel_of_not_mem hs hs' h
      exact ⟨rfl, (List.cons.inj hr).2⟩
    | plain h' => exact absurd h.symm h'.ne_quoted
  | plain hl =>
    cases hl' with
    | quoted => exact absurd h hl.ne_quoted
    | plain hl' => exact cancel_of_not_mem hl.newline_not_mem hl'.newline_not_mem h

mutual

def IsLegible : Indented → Prop
  | .node label parts => IsLabel label ∧ AreLegible parts

def AreLegible : List Indented → Prop
  | [] => True
  | t :: ts => t.IsLegible ∧ AreLegible ts

end

/-- A text that begins at the given depth or deeper. -/
def Reaches (depth : Nat) (r : List Char) : Prop := List.replicate depth '\t' <+: r

theorem Reaches.of_succ {d : Nat} {r : List Char} (h : Reaches (d + 1) r) : Reaches d r := by
  rw [Reaches, List.replicate_succ'] at h
  exact (List.prefix_append _ _).trans h

theorem reaches_of_eq {d : Nat} {t : Indented} {ts : List Indented} {r r' : List Char}
    (h : r = textAll d (t :: ts) ++ r') : Reaches d r := by
  obtain ⟨label, parts⟩ := t
  rw [Reaches, h, textAll, text, line]
  simp only [List.append_assoc]
  exact List.prefix_append _ _

theorem not_reaches_line {l : List Char} (hl : IsLabel l) (d : Nat) (r : List Char) :
    ¬ Reaches (d + 1) (line d l ++ r) := by
  obtain ⟨c, s, rfl, ht⟩ := hl.exists_eq_cons
  rw [Reaches, List.replicate_succ', line, List.append_assoc, List.append_assoc,
    List.prefix_append_right_inj]
  exact fun h => ht (List.cons_prefix_cons.1 h).1.symm

theorem not_reaches_textAll {d : Nat} {ts : List Indented} {r : List Char} (h : AreLegible ts)
    (hr : ¬ Reaches d r) : ¬ Reaches (d + 1) (textAll d ts ++ r) := by
  cases ts with
  | nil => exact fun h => hr h.of_succ
  | cons t ts =>
    obtain ⟨label, parts⟩ := t
    rw [textAll, text, List.append_assoc, List.append_assoc]
    exact not_reaches_line h.1.1 d _

mutual

theorem eq_of_text_append_eq {d : Nat} {r r' : List Char} : ∀ {t t' : Indented},
    t.IsLegible → t'.IsLegible → ¬ Reaches (d + 1) r → ¬ Reaches (d + 1) r' →
    t.text d ++ r = t'.text d ++ r' → t = t' ∧ r = r'
  | .node label parts, .node label' parts', ht, ht', hr, hr', h => by
    have h : label ++ '\n' :: (textAll (d + 1) parts ++ r) =
        label' ++ '\n' :: (textAll (d + 1) parts' ++ r') := by simpa [text, line] using h
    obtain ⟨rfl, hp⟩ := ht.1.cancel ht'.1 h
    obtain ⟨rfl, rfl⟩ := eq_of_textAll_append_eq ht.2 ht'.2 hr hr' hp
    exact ⟨rfl, rfl⟩

theorem eq_of_textAll_append_eq {d : Nat} {r r' : List Char} : ∀ {ts ts' : List Indented},
    AreLegible ts → AreLegible ts' → ¬ Reaches d r → ¬ Reaches d r' →
    textAll d ts ++ r = textAll d ts' ++ r' → ts = ts' ∧ r = r'
  | [], [], _, _, _, _, h => ⟨rfl, h⟩
  | [], t :: ts, _, _, hr, _, h => absurd (reaches_of_eq h) hr
  | t :: ts, [], _, _, _, hr', h => absurd (reaches_of_eq h.symm) hr'
  | t :: ts, t' :: ts', ht, ht', hr, hr', h => by
    rw [textAll, textAll, List.append_assoc, List.append_assoc] at h
    obtain ⟨rfl, hs⟩ := eq_of_text_append_eq ht.1 ht'.1 (not_reaches_textAll ht.2 hr)
      (not_reaches_textAll ht'.2 hr') h
    obtain ⟨rfl, hr⟩ := eq_of_textAll_append_eq ht.2 ht'.2 hr hr' hs
    exact ⟨rfl, hr⟩

end

/-- Trees that stand below a title are told by their text. -/
theorem eq_of_textAll_eq {d : Nat} {ts ts' : List Indented} (h : AreLegible ts)
    (h' : AreLegible ts') (ht : textAll (d + 1) ts = textAll (d + 1) ts') : ts = ts' := by
  have hd : ¬ Reaches (d + 1) [] := by simp [Reaches]
  refine (eq_of_textAll_append_eq h h' hd hd ?_).1
  rw [ht]

end Indented

end FlatScript
